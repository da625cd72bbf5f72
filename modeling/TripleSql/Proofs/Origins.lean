/-
# Where the parts of a statement come from

An element of a query is compiled where the variables of the required elements before it are known, and its fragment
becomes a part of the join tree (`Origin`): the tree of the part is that of the fragment, and the conditions that the part
is joined on are equalities of columns, what the fragment sends outside, and for an optional element its constants and
its own filters. Elements that are joined later leave the part and, after a required element, the scope as they were
(`Course.exists_origin_of_required`, `Course.exists_origin_of_optional`).
-/

import TripleSql.Proofs.Frames

namespace TripleSql
namespace Compile

open Pattern Sql

namespace Assembly

variable {f : Fragment} {b : Bindings} {a : Assembly} {e : Condition}

/-- A fragment is connected by equalities of columns and by what stands outside of it. -/
theorem mem_connections (h : e ∈ a.connections f b) : (∃ c d, e = Condition.columnsEqual c d) ∨ e ∈ f.outer := by
  rcases List.mem_append.1 (Condition.mem_distinct h) with h | h
  · obtain ⟨v, c, d, -, -, -, -, rfl⟩ := mem_links.1 h
    exact .inl ⟨d, c, rfl⟩
  · exact .inr h

end Assembly

/-- **Where a part of a statement comes from:** its tree is that of a fragment that was compiled where certain variables
are known, and it is joined on equalities of columns, on what the fragment sends outside and on some more, each once. -/
structure Origin (cat : Catalog) (gp : GraphPattern) (known : List String) (more : List Condition) (p : Part)
    (base : Scope) (f : Fragment) (s : Scope) : Prop where
  fresh : base.Fresh
  known : ∀ v, v ∈ base.bindings.vars ↔ v ∈ known
  compiled : fragment cat gp base = .ok f s
  tree : p.tree = f.tree
  nodup : p.on.Nodup
  on : ∀ e ∈ p.on, (∃ c d, e = Condition.columnsEqual c d) ∨ e ∈ f.outer ∨ e ∈ more

section Origins

variable {cat : Catalog} {gp : GraphPattern} {es done : List Element} {ms req opt : List Member} {core a a' : Assembly}
  {all all' : Bindings} {base s s' s₁ : Scope} {a'? : Option Assembly} {f : Fragment} {known : List String}
  {more : List Condition} {kind : JoinKind} {b : Bindings} {i : Nat}

/-- A fragment that is joined is where the new part comes from. -/
theorem exists_origin_of_attach (hbase : base.Fresh) (hknown : ∀ v, v ∈ base.bindings.vars ↔ v ∈ known)
    (hf : fragment cat gp base = .ok f s) (h : a.attach kind more f b = .ok a') :
    ∃ p, a'.tree.parts = a.tree.parts ++ [p] ∧ Origin cat gp known more p base f s := by
  rw [Assembly.eq_of_attach h]
  refine ⟨_, JoinTree.parts_attach .., hbase, hknown, hf, rfl, ?_, fun e he => ?_⟩
  · exact Condition.nodup_pushAll (Condition.nodup_distinct _) more
  · rcases Condition.mem_pushAll he with he | he
    · exact (Assembly.mem_connections he).imp_right .inl
    · exact .inr (.inr he)

/-- The variables that are bound are those of the required elements so far. -/
theorem Standing.mem_vars (h : Standing cat es ms a s) (v : String) :
    v ∈ s.bindings.vars ↔ v ∈ es.flatMap Element.vars := by
  rw [h.bindings, Bindings.mem_vars_bindAll, h.members.mem_vars]
  exact or_iff_right List.not_mem_nil

/-- Required elements that are joined leave the parts before them. -/
theorem requireEach_parts (h : requireEach cat (some a) es s = .ok a'? s') :
    ∃ a', a'? = some a' ∧ a.tree.parts <+: a'.tree.parts := by
  induction es generalizing a s with
  | nil =>
    obtain ⟨rfl, rfl⟩ := Step.pure_eq_ok.1 h
    exact ⟨a, rfl, List.prefix_rfl⟩
  | cons e es ih =>
    obtain ⟨a₁, s₁, h₁, h₂⟩ := Step.bind_eq_ok.1 h
    obtain ⟨gp, f, rfl, hf, ha⟩ := requireElement_some_eq_ok h₁
    obtain ⟨a', ha', hparts⟩ := ih h₂
    refine ⟨a', ha', .trans ?_ hparts⟩
    rw [Assembly.eq_of_attach ha, JoinTree.parts_attach]
    exact List.prefix_append ..

/-- No element is joined only where there is none. -/
theorem eq_nil_of_requireEach (h : requireEach cat none es s = .ok none s') : es = [] ∧ s = s' := by
  cases es with
  | nil => exact ⟨rfl, (Step.pure_eq_ok.1 h).2⟩
  | cons e es =>
    obtain ⟨a, s₁, -, h⟩ := Step.bind_eq_ok.1 h
    obtain ⟨a', ha', -⟩ := requireEach_parts h
    cases ha'

/-- Optional elements are attached behind what stands. -/
theorem allowEach_parts (h : allowEach cat a all es s = .ok (a', all') s') : a.tree.parts <+: a'.tree.parts := by
  induction es generalizing a all s with
  | nil =>
    obtain ⟨h, -⟩ := Step.pure_eq_ok.1 h
    cases h
    exact List.prefix_rfl
  | cons e es ih =>
    obtain ⟨⟨a₁, own⟩, s₁, h₁, h₂⟩ := Step.bind_eq_ok.1 h
    obtain ⟨gp, f, t, rfl, hf, rfl, ha, -⟩ := allowElement_eq_ok h₁
    refine .trans ?_ (ih h₂)
    rw [Assembly.eq_of_attach ha, JoinTree.parts_attach]
    exact List.prefix_append ..

/-- **Where the part of a required element comes from.** The scope after the element is kept by the elements after it. -/
theorem exists_origin_of_required (h : requireEach cat none es {} = .ok (some core) s₁)
    (hi : es[i]? = some (.pattern gp)) : ∃ p base f s, core.tree.parts[i]? = some p ∧
      Origin cat gp ((es.take i).flatMap Element.vars) [] p base f s ∧ s.IsKeptIn s₁ := by
  have hlength : (es.take i).length = i := List.length_take_of_le (List.getElem?_eq_some_iff.1 hi).1.le
  rw [eq_take_append_cons hi, requireEach_append] at h
  obtain ⟨a?, s, hbefore, h⟩ := Step.bind_eq_ok.1 h
  obtain ⟨a₁, s₂, hown, hafter⟩ := Step.bind_eq_ok.1 h
  obtain ⟨core', hcore, hparts⟩ := requireEach_parts hafter
  cases hcore
  have hkept : s₂.IsKeptIn s₁ := Step.after_of_eq_ok hafter ▸ requireEach_isSteady (some a₁) _ s₂
  cases a? with
  | none =>
    obtain ⟨hnil, rfl⟩ := eq_nil_of_requireEach hbefore
    rw [hnil] at hlength ⊢
    obtain rfl : 0 = i := hlength
    obtain ⟨gp', f, he, hf, rfl⟩ := requireElement_none_eq_ok hown
    cases he
    obtain ⟨x, hx⟩ := fragment_eq_ok Scope.fresh_empty hf
    refine ⟨⟨.inner, f.tree, []⟩, {}, f, s₂, getElem?_of_prefix hparts ?_, ?_, hkept⟩
    · rw [Assembly.start, hx.chain.parts_eq]
      rfl
    · exact ⟨Scope.fresh_empty, fun v => Iff.rfl, hf, rfl, .nil, nofun⟩
  | some a =>
    obtain ⟨ms, hms⟩ := requireEach_eq_ok hbefore
    obtain ⟨gp', f, he, hf, ha⟩ := requireElement_some_eq_ok hown
    cases he
    have hat : a.tree.parts.length = i := by rw [hms.parts, List.length_map, ← hms.members.length_eq, hlength]
    obtain ⟨p, hp, horigin⟩ := exists_origin_of_attach hms.fresh hms.mem_vars hf ha
    refine ⟨p, s, f, s₂, getElem?_of_prefix hparts ?_, horigin, hkept⟩
    rw [hp, ← hat]
    exact List.getElem?_concat_length

/-- **Where the part of an optional element comes from.** -/
theorem exists_origin_of_optional (hreq : Standing cat done req core s₁)
    (h : allowEach cat core s₁.bindings es s₁ = .ok (a', all') s') (hi : es[i]? = some (.pattern gp)) :
    ∃ p base f s, a'.tree.parts[req.length + i]? = some p ∧ Origin cat gp (done.flatMap Element.vars)
      ((s.constants.takeAll f.tree.aliases).1 ++ f.leftover) p base f s := by
  have hlength : (es.take i).length = i := List.length_take_of_le (List.getElem?_eq_some_iff.1 hi).1.le
  rw [eq_take_append_cons hi, allowEach_append] at h
  obtain ⟨⟨a, all⟩, s, hbefore, h⟩ := Step.bind_eq_ok.1 h
  obtain ⟨⟨a₁, own⟩, s₂, hown, hafter⟩ := Step.bind_eq_ok.1 h
  obtain ⟨opt, hopt⟩ := allowEach_eq_ok hreq.members (Extended.of_standing hreq) hbefore
  obtain ⟨gp', f, t, he, hf, -, ha, -⟩ := allowElement_eq_ok hown
  cases he
  have hat : a.tree.parts.length = req.length + i := by
    rw [hopt.tree, JoinTree.parts_foldl_attach, hreq.parts, List.length_append, List.length_map, List.length_map,
      ← hopt.members.length_eq, List.nil_append, hlength]
  have hknown : ∀ v, v ∈ s.bindings.vars ↔ v ∈ done.flatMap Element.vars := by
    rw [hopt.bindings, ← hreq.bindings]
    exact hreq.mem_vars
  obtain ⟨p, hp, horigin⟩ := exists_origin_of_attach hopt.fresh hknown hf ha
  refine ⟨p, s, f, t, getElem?_of_prefix (allowEach_parts hafter) ?_, horigin⟩
  rw [hp, ← hat]
  exact List.getElem?_concat_length

end Origins

namespace Course

variable {cat : Catalog} {q : Query} {targets : List String} {ordering : Option (String × Direction)} {st : Statement}
  {gp : GraphPattern} {m : Member} {i : Nat}

/-- A required element was compiled with the variables of those before it, and is joined on nothing but equalities and
what its fragment sends outside. -/
theorem exists_origin_of_required (r : Course cat q targets ordering st) (hm : r.req[i]? = some m)
    (hi : q.required[i]? = some (.pattern gp)) : ∃ base f s,
      Origin cat gp ((q.required.take i).flatMap Element.vars) [] m.part base f s ∧ s.IsKeptIn r.final := by
  obtain ⟨p, base, f, s, hp, horigin, hkept⟩ := Compile.exists_origin_of_required r.required hi
  rw [r.standing.parts, List.getElem?_map, hm] at hp
  cases hp
  exact ⟨base, f, s, horigin, hkept.trans (Step.after_of_eq_ok r.optional ▸ allowEach_isSteady ..)⟩

/-- An optional element was compiled with the variables of the required ones; its own constants and filters are joined
with it. -/
theorem exists_origin_of_optional (r : Course cat q targets ordering st) (hm : r.opt[i]? = some m)
    (hi : q.optional[i]? = some (.pattern gp)) : ∃ base f s, Origin cat gp (q.required.flatMap Element.vars)
      ((s.constants.takeAll f.tree.aliases).1 ++ f.leftover) m.part base f s := by
  obtain ⟨p, base, f, s, hp, horigin⟩ := Compile.exists_origin_of_optional r.standing r.optional hi
  rw [← r.tables, r.compilation.parts_eq, List.getElem?_map, List.getElem?_append_right (Nat.le_add_right ..),
    Nat.add_sub_cancel_left, hm] at hp
  cases hp
  exact ⟨base, f, s, horigin⟩

end Course
end Compile
end TripleSql
