/-
# The required elements of a statement

What stands when some required elements are joined (`Standing`): a member for each of them, a join tree of inner joins
whose parts are theirs, the columns and bindings of their pieces, and a scope in which nothing waits but their
constants. Their pieces are enforced by the conditions of their parts together with all that is left for `WHERE`. The
first element starts this (`standing_start`), every other one continues it (`Standing.require`), and so it holds of
the required part of every statement that compiles (`requireEach_eq_ok`).
-/

import TripleSql.Proofs.Assemblies

namespace TripleSql
namespace Compile

open Pattern Sql

/-- The members are those of the elements, in order. -/
def MembersOf (cat : Catalog) (es : List Element) (ms : List Member) : Prop :=
  List.Forall₂ (fun e m => ∃ gp, e = Element.pattern gp ∧ Member.Of cat gp m) es ms

namespace MembersOf

variable {cat : Catalog} {es : List Element} {ms : List Member} {m : Member}

/-- Every member is that of a graph pattern among the elements. -/
theorem exists_of_mem (h : MembersOf cat es ms) (hm : m ∈ ms) :
    ∃ gp, Element.pattern gp ∈ es ∧ Member.Of cat gp m := by
  obtain ⟨e, he, gp, rfl, hof⟩ := exists_left_of_forall₂ h hm
  exact ⟨gp, he, hof⟩

/-- Every placement of a member stands on the table of its predicate. -/
theorem placed (h : MembersOf cat es ms) (hm : m ∈ ms) : ∀ p ∈ m.piece.placements, p.Of cat := by
  obtain ⟨gp, -, hof⟩ := h.exists_of_mem hm
  exact hof.placed

/-- One more element has one more member. -/
theorem snoc (h : MembersOf cat es ms) {gp : GraphPattern} (hm : Member.Of cat gp m) :
    MembersOf cat (es ++ [.pattern gp]) (ms ++ [m]) :=
  List.rel_append h (.cons ⟨gp, rfl, hm⟩ .nil)

/-- The columns of members are columns of their tables. -/
theorem tableAlias_mem (h : MembersOf cat es ms) {v : String} {c : Column} (hc : (v, c) ∈ columnsOf ms) :
    c.tableAlias ∈ aliasesOf ms := by
  obtain ⟨m, hm, hmc⟩ := List.mem_flatMap.1 hc
  exact List.mem_flatMap.2 ⟨m, hm, Piece.tableAlias_mem (h.placed hm) hmc⟩

end MembersOf

/-- The columns of the members of two groups, in order. -/
theorem columnsOf_append (ms ns : List Member) : columnsOf (ms ++ ns) = columnsOf ms ++ columnsOf ns :=
  List.flatMap_append

/-- The aliases of the members of two groups, in order. -/
theorem aliasesOf_append (ms ns : List Member) : aliasesOf (ms ++ ns) = aliasesOf ms ++ aliasesOf ns :=
  List.flatMap_append

/-- The columns of one member are those of its piece. -/
@[simp] theorem columnsOf_singleton (m : Member) : columnsOf [m] = m.piece.columns := by
  simp [columnsOf]

/-- The aliases of one member are those of its piece. -/
@[simp] theorem aliasesOf_singleton (m : Member) : aliasesOf [m] = m.piece.aliases := by
  simp [aliasesOf]

/-- The bindings that start with none go by the first column. -/
theorem column?_bindAll_empty (es : List (String × Column)) (v : String) :
    (({} : Bindings).bindAll es).column? v = es.lookup v := by
  rw [Bindings.column?_bindAll]
  rfl

/-- An entry of a list with one more at its end is that one or stood there before. -/
theorem eq_or_eq_append_of_snoc {α : Type} {ms l r : List α} {m n : α} (h : ms ++ [n] = l ++ m :: r) :
    l = ms ∧ m = n ∨ ∃ r', ms = l ++ m :: r' := by
  rcases List.eq_nil_or_concat r with rfl | ⟨r', b, rfl⟩
  · obtain ⟨hl, hm⟩ := List.append_inj' h rfl
    exact .inl ⟨hl.symm, (List.cons.inj hm).1.symm⟩
  · rw [List.concat_eq_append, ← List.cons_append, ← List.append_assoc] at h
    exact .inr ⟨r', (List.append_inj' h rfl).1⟩

/-- **What stands when the elements are joined** that are required: their members, the assembly and the scope. -/
structure Standing (cat : Catalog) (es : List Element) (ms : List Member) (a : Assembly) (s : Scope) :
    Prop where
  members : MembersOf cat es ms
  bases : ∀ {l m r}, ms = l ++ m :: r → m.piece.base = ({} : Bindings).bindAll (columnsOf l)
  kinds : ∀ m ∈ ms, m.part.kind = .inner
  fresh : s.Fresh
  taken : s.aliases.taken = aliasesOf ms
  bindings : s.bindings = ({} : Bindings).bindAll (columnsOf ms)
  inner : a.tree.IsInner
  wellScoped : a.tree.WellScoped
  parts : a.tree.parts = ms.map Member.part
  aliases : a.tree.aliases = aliasesOf ms
  mem_columns : ∀ e, e ∈ a.columns ↔ e ∈ columnsOf ms
  residual : ∀ e ∈ a.residual, ∃ m ∈ ms, m.piece.Grounds e
  waiting : ∀ {b e}, e ∈ s.constants.under b → ∃ m ∈ ms, ∃ c x, m.piece.Constant c x ∧ b = c.tableAlias ∧
    e = Condition.columnIs c x
  enforced : ∀ m ∈ ms, m.piece.Enforced (m.part.conditions ++ (a.residual ++ s.waiting))

/-- What waits under an alias is, up to equivalence, among all that waits. -/
theorem Scope.has_waiting {s : Scope} {b : String} {e : Condition}
    (h : Condition.Has (s.constants.under b) e) : Condition.Has s.waiting e :=
  h.mono fun _ hd => Scope.mem_waiting.2 ⟨b, hd⟩

/-- The conditions of a fragment go to its tree, outside, or are left over. -/
theorem Fragment.mem_conditions {f : Fragment} {e : Condition} :
    e ∈ f.conditions ↔ e ∈ f.tree.conditions ∨ e ∈ f.outer ∨ e ∈ f.leftover := by
  rw [Fragment.conditions, Fragment.held, List.append_assoc, List.mem_append, List.mem_append]

/-- **A fragment that is joined on its connections is enforced** by conditions that say what its tree, its join and its
own filters say, and the constants that wait. -/
theorem Compiled.enforced_attach {cat : Catalog} {gp : GraphPattern} {base s : Scope} {x : Piece} {f : Fragment}
    {a : Assembly} {b : Bindings} {on cs : List Condition} (h : Compiled cat gp base x f s) (ha : a.Knows base)
    (hbase : base.Fresh) (hb : b = base.bindings ∨ b = s.bindings)
    (hon : ∀ e, e ∈ a.links f b ∨ e ∈ f.outer → Condition.Has on e)
    (hcs : ∀ e ∈ f.tree.conditions ++ on, Condition.Has cs e) (hleft : ∀ e ∈ f.leftover, Condition.Has cs e)
    (hconstants : ∀ {c a}, Condition.Has (s.constants.under c.tableAlias) (Condition.columnIs c a) →
      x.Constant c a → Condition.Has cs (Condition.columnIs c a)) : x.Enforced cs := by
  have has_on : ∀ {e}, Condition.Has on e → Condition.Has cs e := fun he =>
    he.trans fun d hd => hcs d (List.mem_append_right _ hd)
  refine h.enforced (fun e he => ?_) hconstants fun hc hd => ?_
  · rcases Fragment.mem_conditions.1 he with he | he | he
    · exact hcs e (List.mem_append_left _ he)
    · exact has_on (hon e (.inr he))
    · exact hleft e he
  · exact (has_on (hon _ (.inl (Assembly.mem_links_of_base ha hbase h hb hc hd)))).columnsEqual_swap

/-- **What a fragment is joined on is grounded,** if what is added to its connections is. -/
theorem Compiled.grounds_of_attach {cat : Catalog} {gp : GraphPattern} {base s : Scope} {x : Piece} {f : Fragment}
    {a : Assembly} {b : Bindings} {more on : List Condition} (h : Compiled cat gp base x f s) (ha : a.Knows base)
    (hb : b = base.bindings ∨ b = s.bindings) (hon : ∀ e ∈ on, e ∈ a.links f b ∨ e ∈ f.outer ∨ e ∈ more)
    (hmore : ∀ e ∈ more, x.Grounds e) : ∀ e ∈ on, x.Grounds e := fun e he => by
  rcases hon e he with he | he | he
  · exact Assembly.grounds_of_mem_links ha h hb he
  · exact h.grounds e (Fragment.mem_conditions.2 (.inr (.inl he)))
  · exact hmore e he

/-- The column that a variable had before a graph pattern is one of a table that was taken before. -/
theorem Compiled.mem_taken_of_base {cat : Catalog} {gp : GraphPattern} {base s : Scope} {x : Piece} {f : Fragment}
    (h : Compiled cat gp base x f s) (hbase : base.Fresh) {v : String} {c : Column} (hv : x.base.column? v = some c) :
    c.tableAlias ∈ base.aliases.taken :=
  hbase.bindings (h.base_eq ▸ hv)

section Start

variable {cat : Catalog} {gp : GraphPattern} {x : Piece} {f : Fragment} {s : Scope}

/-- The first required element stands alone. -/
theorem standing_start (h : Compiled cat gp {} x f s) :
    Standing cat [.pattern gp] [⟨x, ⟨.inner, f.tree, []⟩⟩] (.start f) s := by
  have hbase : ∀ v, x.base.column? v = none := fun v => by rw [h.base_eq]; rfl
  constructor
  case members => exact .cons ⟨gp, rfl, h.memberOf nofun⟩ .nil
  case bases =>
    intro l m r hl
    cases l with
    | nil => cases hl; exact h.base_eq
    | cons n l => simp at hl
  case kinds => simp
  case fresh => exact h.fresh
  case taken => rw [h.taken, aliasesOf_singleton]; rfl
  case bindings => rw [h.bindings, Piece.bindings, h.base_eq, columnsOf_singleton]
  case inner => exact h.chain.isInner
  case wellScoped => exact h.wellScoped
  case parts => exact h.chain.parts_eq
  case aliases => rw [aliasesOf_singleton]; exact h.tree_aliases
  case mem_columns => intro e; rw [columnsOf_singleton]; exact h.mem_columns e
  case residual =>
    intro e he
    refine ⟨_, List.mem_singleton.2 rfl, h.grounds e (Fragment.mem_conditions.2 (.inr ?_))⟩
    exact List.mem_append.1 (Condition.mem_distinct he)
  case waiting =>
    intro b e he
    refine ⟨_, List.mem_singleton.2 rfl, (h.waiting he).resolve_left fun he => ?_⟩
    cases he
  case enforced =>
    intro m hm
    obtain rfl := List.mem_singleton.1 hm
    refine h.enforced (fun e he => ?_) (fun hh _ => ?_) fun hc hd => ?_
    · refine Condition.has_append.2 ((Fragment.mem_conditions.1 he).imp (fun he => ?_) fun he => ?_)
      · exact Condition.has_of_mem (List.mem_append_left _ he)
      · exact Condition.has_append.2 (.inl (Condition.has_distinct (List.mem_append.2 he)))
    · exact Condition.has_append.2 (.inr (Condition.has_append.2 (.inr (Scope.has_waiting hh))))
    · rw [hbase] at hd
      cases hd

end Start

namespace Standing

variable {cat : Catalog} {es : List Element} {ms : List Member} {a a' : Assembly} {s s' : Scope}
  {gp : GraphPattern} {x : Piece} {f : Fragment}

/-- What stands has the columns that are bound, and the aliases of its tables are taken. -/
theorem knows (h : Standing cat es ms a s) : a.Knows s where
  bound {v d} hv := by
    rw [h.bindings, column?_bindAll_empty] at hv
    exact (h.mem_columns _).2 (mem_of_lookup hv)
  taken hv := h.taken ▸ h.members.tableAlias_mem ((h.mem_columns _).1 hv)

/-- **One more required element** is joined. -/
theorem require (h : Standing cat es ms a s) (hf : Compiled cat gp s x f s')
    (ha : a.require f s'.bindings = .ok a') :
    ∃ m, Standing cat (es ++ [.pattern gp]) (ms ++ [m]) a' s' := by
  obtain ⟨on, rfl, hon, hon'⟩ := Assembly.attach_eq_ok ha
  have hground := hf.grounds_of_attach h.knows (.inr rfl) hon nofun
  have hbase : ∀ {v c}, x.base.column? v = some c → c.tableAlias ∈ a.tree.aliases := fun hv => by
    rw [h.aliases, ← h.taken]
    exact hf.mem_taken_of_base h.fresh hv
  refine ⟨⟨x, ⟨.inner, f.tree, on⟩⟩, ?_⟩
  constructor
  case members => exact h.members.snoc (hf.memberOf hground)
  case bases =>
    intro l m r hl
    rcases eq_or_eq_append_of_snoc hl with ⟨rfl, rfl⟩ | ⟨r', rfl⟩
    · exact hf.base_eq.trans h.bindings
    · exact h.bases rfl
  case kinds =>
    intro m hm
    rcases List.mem_append.1 hm with hm | hm
    · exact h.kinds m hm
    · exact List.mem_singleton.1 hm ▸ rfl
  case fresh => exact hf.fresh
  case taken => rw [hf.taken, h.taken, aliasesOf_append, aliasesOf_singleton]
  case bindings =>
    rw [hf.bindings, Piece.bindings, hf.base_eq, h.bindings, columnsOf_append, columnsOf_singleton,
      Bindings.bindAll_append]
  case inner => exact ⟨h.inner, rfl, hf.chain.isInner⟩
  case wellScoped => exact hf.wellScoped_attach h.wellScoped hground hbase
  case parts => rw [JoinTree.parts_attach, List.map_append, ← h.parts]; rfl
  case aliases => rw [hf.aliases_attach, h.aliases, aliasesOf_append, aliasesOf_singleton]
  case mem_columns =>
    intro e
    rw [mem_addColumns, h.mem_columns, hf.mem_columns, columnsOf_append, columnsOf_singleton, List.mem_append]
  case residual =>
    intro e he
    rcases Condition.mem_pushAll he with he | he
    · obtain ⟨m, hm, hg⟩ := h.residual e he
      exact ⟨m, List.mem_append_left _ hm, hg⟩
    · exact ⟨_, List.mem_append_right _ (List.mem_singleton.2 rfl),
        hf.grounds e (Fragment.mem_conditions.2 (.inr (.inr he)))⟩
  case waiting =>
    intro b e he
    rcases hf.waiting he with he | he
    · obtain ⟨m, hm, hc⟩ := h.waiting he
      exact ⟨m, List.mem_append_left _ hm, hc⟩
    · exact ⟨_, List.mem_append_right _ (List.mem_singleton.2 rfl), he⟩
  case enforced =>
    intro m hm
    rcases List.mem_append.1 hm with hm | hm
    · refine (h.enforced m hm).mono fun he => he.mono fun d hd => ?_
      simp only [List.mem_append] at hd ⊢
      refine hd.imp_right (.imp (fun hd => Condition.mem_pushAll_of_mem hd _) ?_)
      exact Scope.mem_waiting_of_under (hf.waiting_of_mem h.fresh)
    · obtain rfl := List.mem_singleton.1 hm
      refine hf.enforced_attach h.knows h.fresh (.inr rfl) (fun e he => hon' e (he.imp_right .inl))
        (fun e he => Condition.has_of_mem (List.mem_append_left _ he)) (fun e he => ?_) fun hh _ => ?_
      · exact Condition.has_append.2 (.inr (Condition.has_append.2 (.inl (Condition.has_pushAll he))))
      · exact Condition.has_append.2 (.inr (Condition.has_append.2 (.inr (Scope.has_waiting hh))))

end Standing

/-- Only a graph pattern is compiled, in any role. -/
theorem graphPattern_eq_ok {role : Role} {e : Element} {gp : GraphPattern} :
    graphPattern role e = .ok gp ↔ e = .pattern gp := by
  cases e <;> simp [graphPattern]

section Run

variable {cat : Catalog} {e : Element} {es fs : List Element} {a a' : Assembly} {s s' : Scope}

/-- The first required element starts what is joined with its fragment. -/
theorem requireElement_none_eq_ok (h : requireElement cat none e s = .ok a s') :
    ∃ gp f, e = .pattern gp ∧ fragment cat gp s = .ok f s' ∧ a = .start f := by
  simp only [requireElement, Step.bind_eq_ok, Step.ofExcept_eq_ok, graphPattern_eq_ok, Step.pure_eq_ok] at h
  obtain ⟨gp, _, ⟨he, rfl⟩, f, _, hf, ha, rfl⟩ := h
  exact ⟨gp, f, he, hf, ha.symm⟩

/-- Every other required element is joined as a fragment. -/
theorem requireElement_some_eq_ok (h : requireElement cat (some a) e s = .ok a' s') :
    ∃ gp f, e = .pattern gp ∧ fragment cat gp s = .ok f s' ∧ a.require f s'.bindings = .ok a' := by
  simp only [requireElement, Step.bind_eq_ok, Step.ofExcept_eq_ok, graphPattern_eq_ok, Step.get_eq_ok] at h
  obtain ⟨gp, _, ⟨he, rfl⟩, f, _, hf, _, _, ⟨rfl, rfl⟩, ha, rfl⟩ := h
  exact ⟨gp, f, he, hf, ha⟩

/-- **One required element after another:** what stands for those before goes on to stand, with a member more each
time. The induction is over the elements that are left. -/
theorem requireEach_some_eq_ok {done : List Element} {ms : List Member} {a'? : Option Assembly}
    (h : requireEach cat (some a) es s = .ok a'? s') (hs : Standing cat done ms a s) :
    ∃ ms' a', a'? = some a' ∧ Standing cat (done ++ es) ms' a' s' := by
  induction es generalizing a s done ms with
  | nil =>
    obtain ⟨rfl, rfl⟩ := Step.pure_eq_ok.1 h
    exact ⟨ms, a, rfl, by rwa [List.append_nil]⟩
  | cons e es ih =>
    obtain ⟨a₁, s₁, h₁, h₂⟩ := Step.bind_eq_ok.1 h
    obtain ⟨gp, f, rfl, hf, ha⟩ := requireElement_some_eq_ok h₁
    obtain ⟨x, hx⟩ := fragment_eq_ok hs.fresh hf
    obtain ⟨m, hm⟩ := hs.require hx ha
    obtain ⟨ms', a', ha', hs'⟩ := ih h₂ hm
    exact ⟨ms', a', ha', by rwa [List.append_assoc] at hs'⟩

/-- Required elements are joined in two stages as in one. -/
theorem requireEach_append (a? : Option Assembly) :
    requireEach cat a? (es ++ fs) = requireEach cat a? es >>= fun a? => requireEach cat a? fs := by
  induction es generalizing a? with
  | nil => exact (pure_bind ..).symm
  | cons e es ih => simp only [List.cons_append, requireEach, bind_assoc, ih]

/-- **The required part of a statement stands.** -/
theorem requireEach_eq_ok (h : requireEach cat none es {} = .ok (some a) s) :
    ∃ ms, Standing cat es ms a s := by
  cases es with
  | nil =>
    obtain ⟨h, -⟩ := Step.pure_eq_ok.1 h
    cases h
  | cons e es =>
    obtain ⟨a₁, s₁, h₁, h₂⟩ := Step.bind_eq_ok.1 h
    obtain ⟨gp, f, rfl, hf, rfl⟩ := requireElement_none_eq_ok h₁
    obtain ⟨x, hx⟩ := fragment_eq_ok Scope.fresh_empty hf
    obtain ⟨ms, a', ha', hs⟩ := requireEach_some_eq_ok h₂ (standing_start hx)
    cases ha'
    exact ⟨ms, hs⟩

end Run

end Compile
end TripleSql
