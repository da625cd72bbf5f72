/-
# The optional elements, and the whole statement

Optional elements are joined to what stands after the required ones (`Extended`). None of them sees another: each is
compiled with the bindings of the required elements, is joined on conditions that are grounded in its own piece, and
leaves nothing to wait.

`Compilation` says the same of the whole statement, with the columns of the targets and of the ordering: a variable
stands there for the first column that it has in the members, the required ones before the optional ones.
-/

import TripleSql.Compile.Session
import TripleSql.Proofs.RequiredElements

namespace TripleSql
namespace Compile

open Pattern Sql

/-- **An optional element is enforced by its own part alone,** since its constants and the filters that are left over are
joined with it. -/
theorem Compiled.enforced_allow {cat : Catalog} {gp : GraphPattern} {base s : Scope} {x : Piece} {f : Fragment}
    {a : Assembly} {on : List Condition} (h : Compiled cat gp base x f s) (ha : a.Knows base) (hbase : base.Fresh)
    (hon : ∀ e, e ∈ a.links f base.bindings ∨ e ∈ f.outer ∨
      e ∈ (s.constants.takeAll f.tree.aliases).1 ++ f.leftover → Condition.Has on e) :
    x.Enforced (f.tree.conditions ++ on) := by
  have has_more : ∀ {e}, e ∈ (s.constants.takeAll f.tree.aliases).1 ++ f.leftover →
      Condition.Has (f.tree.conditions ++ on) e := fun he =>
    (hon _ (.inr (.inr he))).mono fun d hd => List.mem_append_right _ hd
  refine h.enforced_attach ha hbase (.inl rfl) (fun e he => hon e (he.imp_right .inl))
    (fun e he => Condition.has_of_mem he) (fun e he => has_more (List.mem_append_right _ he)) fun hh hc => ?_
  obtain ⟨p, hp, hs⟩ := hc
  refine hh.trans fun e he => has_more (List.mem_append_left _ (Constants.mem_takeAll.2 ⟨_, ?_, he⟩))
  rw [h.tree_aliases]
  exact List.mem_map.2 ⟨p, hp, ((h.placed p hp).tableAlias_eq hs).symm⟩

/-- **What stands when optional elements are joined** to the required ones. -/
structure Extended (cat : Catalog) (req : List Member) (core : Assembly) (es : List Element)
    (opt : List Member) (a : Assembly) (all : Bindings) (s : Scope) : Prop where
  members : MembersOf cat es opt
  bases : ∀ m ∈ opt, m.piece.base = ({} : Bindings).bindAll (columnsOf req)
  kinds : ∀ m ∈ opt, m.part.kind = .leftOuter
  fresh : s.Fresh
  taken : s.aliases.taken = aliasesOf (req ++ opt)
  bindings : s.bindings = ({} : Bindings).bindAll (columnsOf req)
  tree : a.tree = (opt.map Member.part).foldl JoinTree.attach core.tree
  wellScoped : a.tree.WellScoped
  aliases : a.tree.aliases = aliasesOf (req ++ opt)
  mem_columns : ∀ e, e ∈ a.columns ↔ e ∈ columnsOf (req ++ opt)
  residual : a.residual = core.residual
  waiting : ∀ {b e}, e ∈ s.constants.under b → ∃ m ∈ req, ∃ c x, m.piece.Constant c x ∧ b = c.tableAlias ∧
    e = Condition.columnIs c x
  required : ∀ m ∈ req, m.piece.Enforced (m.part.conditions ++ (core.residual ++ s.waiting))
  enforced : ∀ m ∈ opt, m.piece.Enforced m.part.conditions
  all : ∀ v, all.column? v = (columnsOf (req ++ opt)).lookup v

namespace Extended

variable {cat : Catalog} {req opt : List Member} {core a a' : Assembly} {es done : List Element}
  {all : Bindings} {s s' : Scope} {gp : GraphPattern} {x : Piece} {f : Fragment}

/-- Where all required elements stand, optional ones may follow. -/
theorem of_standing (h : Standing cat es req core s) : Extended cat req core [] [] core s.bindings s where
  members := .nil
  bases := nofun
  kinds := nofun
  fresh := h.fresh
  taken := by rw [List.append_nil, h.taken]
  bindings := h.bindings
  tree := rfl
  wellScoped := h.wellScoped
  aliases := by rw [List.append_nil, h.aliases]
  mem_columns e := by rw [List.append_nil, h.mem_columns]
  residual := rfl
  waiting := h.waiting
  required := h.enforced
  enforced := nofun
  all v := by rw [h.bindings, column?_bindAll_empty, List.append_nil]

/-- The columns of all members are under aliases that are taken. -/
theorem tableAlias_mem (hreq : MembersOf cat done req) (h : Extended cat req core es opt a all s)
    {v : String} {c : Column} (hc : (v, c) ∈ columnsOf (req ++ opt)) :
    c.tableAlias ∈ aliasesOf (req ++ opt) := by
  rw [columnsOf_append, List.mem_append] at hc
  rw [aliasesOf_append, List.mem_append]
  exact hc.imp hreq.tableAlias_mem h.members.tableAlias_mem

/-- What is extended has the columns that are bound, and the aliases of its tables are taken, optional ones included.
-/
theorem knows (hreq : MembersOf cat done req) (h : Extended cat req core es opt a all s) : a.Knows s where
  bound {v d} hv := by
    rw [h.bindings, column?_bindAll_empty] at hv
    rw [h.mem_columns, columnsOf_append]
    exact List.mem_append_left _ (mem_of_lookup hv)
  taken hv := h.taken ▸ tableAlias_mem hreq h ((h.mem_columns _).1 hv)

/-- **One more optional element** is joined. -/
theorem allow (hreq : MembersOf cat done req) (h : Extended cat req core es opt a all s)
    (hf : Compiled cat gp s x f s')
    (ha : a.allow f (s'.constants.takeAll f.tree.aliases).1 s.bindings = .ok a') :
    ∃ m, Extended cat req core (es ++ [.pattern gp]) (opt ++ [m]) a' (all.bindAll s'.bindings.entries)
      { s' with bindings := s.bindings, constants := (s'.constants.takeAll f.tree.aliases).2 } := by
  obtain ⟨on, rfl, hon, hon'⟩ := Assembly.attach_eq_ok ha
  have hknows := h.knows hreq
  have hground := hf.grounds_of_attach hknows (.inl rfl) hon fun e he => (List.mem_append.1 he).elim
    (hf.grounds_of_mem_takeAll h.fresh) fun he => hf.grounds e (Fragment.mem_conditions.2 (.inr (.inr he)))
  have hbase : ∀ {v c}, x.base.column? v = some c → c.tableAlias ∈ a.tree.aliases := fun hv => by
    rw [h.aliases, ← h.taken]
    exact hf.mem_taken_of_base h.fresh hv
  -- The constants of the element are taken with it, so what waits is what waited before.
  have hunder : ∀ b, (s'.constants.takeAll f.tree.aliases).2.under b = s.constants.under b :=
    hf.under_takeAll h.fresh
  refine ⟨⟨x, ⟨.leftOuter, f.tree, on⟩⟩, ?_⟩
  constructor
  case members => exact h.members.snoc (hf.memberOf hground)
  case bases =>
    intro m hm
    rcases List.mem_append.1 hm with hm | hm
    · exact h.bases m hm
    · exact List.mem_singleton.1 hm ▸ hf.base_eq.trans h.bindings
  case kinds =>
    intro m hm
    rcases List.mem_append.1 hm with hm | hm
    · exact h.kinds m hm
    · exact List.mem_singleton.1 hm ▸ rfl
  case fresh =>
    refine ⟨hf.fresh.nodup, fun hv => ?_, fun he => ?_⟩
    · exact hf.taken ▸ List.mem_append_left _ (h.fresh.bindings hv)
    · rw [hunder] at he
      exact hf.taken ▸ List.mem_append_left _ (h.fresh.constants he)
  case taken =>
    change s'.aliases.taken = _
    rw [hf.taken, h.taken, ← List.append_assoc, aliasesOf_append _ [_], aliasesOf_singleton]
  case bindings => exact h.bindings
  case tree => rw [List.map_append, List.foldl_append, ← h.tree]; rfl
  case wellScoped => exact hf.wellScoped_attach h.wellScoped hground hbase
  case aliases =>
    rw [hf.aliases_attach, h.aliases, ← List.append_assoc, aliasesOf_append _ [_], aliasesOf_singleton]
  case mem_columns =>
    intro e
    rw [mem_addColumns, h.mem_columns, hf.mem_columns, ← List.append_assoc, columnsOf_append _ [_],
      columnsOf_singleton, List.mem_append]
  case residual => exact h.residual
  case waiting => exact fun he => h.waiting (hunder _ ▸ he)
  case required =>
    intro m hm
    refine (h.required m hm).mono fun he => he.mono fun d hd => ?_
    simp only [List.mem_append] at hd ⊢
    exact hd.imp_right (.imp_right (Scope.mem_waiting_of_under fun he => (hunder _).symm ▸ he))
  case enforced =>
    intro m hm
    rcases List.mem_append.1 hm with hm | hm
    · exact h.enforced m hm
    · exact List.mem_singleton.1 hm ▸ hf.enforced_allow hknows h.fresh hon'
  case all =>
    intro v
    -- The element started from the bindings of the required ones, so these go before its own columns.
    have hentries : s'.bindings.entries.lookup v = ((columnsOf req).lookup v).or (x.columns.lookup v) := by
      change s'.bindings.column? v = _
      rw [hf.bindings, Piece.bindings, Bindings.column?_bindAll, hf.base_eq, h.bindings, column?_bindAll_empty]
    rw [Bindings.column?_bindAll, hentries, h.all, ← List.append_assoc, columnsOf_append _ [_],
      columnsOf_singleton, List.lookup_append, columnsOf_append, List.lookup_append]
    cases (columnsOf req).lookup v <;> simp

end Extended

section Run

variable {cat : Catalog} {req opt : List Member} {core a a' : Assembly} {e : Element}
  {es fs done : List Element} {all all' own : Bindings} {s s' : Scope}

/-- An optional element is joined as a fragment with its own constants, and the bindings before it are put back. -/
theorem allowElement_eq_ok (h : allowElement cat a e s = .ok (a', own) s') :
    ∃ gp f t, e = .pattern gp ∧ fragment cat gp s = .ok f t ∧ own = t.bindings ∧
      a.allow f (t.constants.takeAll f.tree.aliases).1 s.bindings = .ok a' ∧
      s' = { t with bindings := s.bindings, constants := (t.constants.takeAll f.tree.aliases).2 } := by
  simp only [allowElement, Step.bind_eq_ok, Step.ofExcept_eq_ok, graphPattern_eq_ok, Step.get_eq_ok,
    Step.modifyGet_eq_ok, Step.pure_eq_ok, Prod.mk.injEq] at h
  obtain ⟨gp, _, ⟨he, rfl⟩, _, _, ⟨rfl, rfl⟩, f, t, hf, _, _, ⟨rfl, rfl⟩, _, _, ⟨rfl, rfl⟩, a₁, _,
    ⟨ha, rfl⟩, ⟨rfl, rfl⟩, rfl⟩ := h
  exact ⟨gp, f, t, he, hf, rfl, ha, rfl⟩

/-- Optional elements are joined in two stages as in one. -/
theorem allowEach_append (a : Assembly) (all : Bindings) :
    allowEach cat a all (es ++ fs) = allowEach cat a all es >>= fun r => allowEach cat r.1 r.2 fs := by
  induction es generalizing a all with
  | nil => exact (pure_bind ..).symm
  | cons e es ih => simp only [List.cons_append, allowEach, bind_assoc, ih]

/-- **One optional element after another:** what is extended is extended further. The induction is over the elements
that are left. -/
theorem allowEach_eq_ok (hreq : MembersOf cat done req) {before : List Element}
    (hs : Extended cat req core before opt a all s) (h : allowEach cat a all es s = .ok (a', all') s') :
    ∃ opt', Extended cat req core (before ++ es) opt' a' all' s' := by
  induction es generalizing before opt a all s with
  | nil =>
    obtain ⟨h, rfl⟩ := Step.pure_eq_ok.1 h
    cases h
    exact ⟨opt, by rwa [List.append_nil]⟩
  | cons e es ih =>
    obtain ⟨⟨a₁, own⟩, s₁, h₁, h₂⟩ := Step.bind_eq_ok.1 h
    obtain ⟨gp, f, t, rfl, hf, rfl, ha, rfl⟩ := allowElement_eq_ok h₁
    obtain ⟨x, hx⟩ := fragment_eq_ok hs.fresh hf
    obtain ⟨m, hm⟩ := hs.allow hreq hx ha
    obtain ⟨opt', hs'⟩ := ih hm h₂
    exact ⟨opt', by rwa [List.append_assoc] at hs'⟩

end Run

/-- **What a statement is made of:** the members of the required elements and those of the optional ones. -/
structure Compilation (cat : Catalog) (q : Query) (targets : List String)
    (ordering : Option (String × Direction)) (st : Statement) (req opt : List Member) : Prop where
  required : MembersOf cat q.required req
  optional : MembersOf cat q.optional opt
  requiredBases : ∀ {l m r}, req = l ++ m :: r → m.piece.base = ({} : Bindings).bindAll (columnsOf l)
  optionalBases : ∀ m ∈ opt, m.piece.base = ({} : Bindings).bindAll (columnsOf req)
  requiredKinds : ∀ m ∈ req, m.part.kind = .inner
  optionalKinds : ∀ m ∈ opt, m.part.kind = .leftOuter
  nodup : (aliasesOf (req ++ opt)).Nodup
  tree : ∃ core : JoinTree, core.IsInner ∧ core.WellScoped ∧ core.parts = req.map Member.part ∧
    st.tables = (opt.map Member.part).foldl JoinTree.attach core
  wellScoped : st.tables.WellScoped
  grounds : ∀ e ∈ st.conditions, ∃ m ∈ req, m.piece.Grounds e
  requiredEnforced : ∀ m ∈ req, m.piece.Enforced (m.part.conditions ++ st.conditions)
  optionalEnforced : ∀ m ∈ opt, m.piece.Enforced m.part.conditions
  select : List.Forall₂ (fun v c => (columnsOf (req ++ opt)).lookup v = some c) targets st.select
  ordering : ∀ o ∈ st.ordering, ∃ v, (columnsOf (req ++ opt)).lookup v = some o.column

/-- The placements of some members. -/
def placementsOf (ms : List Member) : List Placement := ms.flatMap (·.piece.placements)

/-- The placements of members are those of their pieces. -/
theorem mem_placementsOf {ms : List Member} {p : Placement} :
    p ∈ placementsOf ms ↔ ∃ m ∈ ms, p ∈ m.piece.placements := List.mem_flatMap

/-- The placements of members have their aliases, in order. -/
theorem map_aliasName_placementsOf (ms : List Member) :
    (placementsOf ms).map Placement.aliasName = aliasesOf ms := List.map_flatMap

namespace Compilation

variable {cat : Catalog} {q : Query} {targets : List String} {ordering : Option (String × Direction)}
  {st : Statement} {req opt : List Member} {m n : Member} {p p' : Placement}

/-- The members of a statement are those of all elements, required ones first. -/
theorem members (h : Compilation cat q targets ordering st req opt) :
    MembersOf cat (q.required ++ q.optional) (req ++ opt) := List.rel_append h.required h.optional

/-- **An alias tells the placement.** -/
theorem placement_ext (h : Compilation cat q targets ordering st req opt) (hp : p ∈ placementsOf (req ++ opt))
    (hp' : p' ∈ placementsOf (req ++ opt)) (he : p.aliasName = p'.aliasName) : p = p' :=
  List.inj_on_of_nodup_map (map_aliasName_placementsOf _ ▸ h.nodup) hp hp' he

/-- No placement of a statement occurs twice: no alias does. -/
theorem nodup_placementsOf (h : Compilation cat q targets ordering st req opt) :
    (placementsOf (req ++ opt)).Nodup :=
  (map_aliasName_placementsOf _ ▸ h.nodup : ((placementsOf _).map _).Nodup).of_map _

/-- No two members are the same. -/
theorem nodup_members (h : Compilation cat q targets ordering st req opt) : (req ++ opt).Nodup := by
  refine (List.nodup_flatMap.1 h.nodup_placementsOf).2.imp fun {m n} hd hmn => ?_
  exact hd (List.mem_cons_self ..) (hmn ▸ List.mem_cons_self ..)

/-- The first triple pattern of an element is joined once. -/
theorem first_not_mem_rest (h : Compilation cat q targets ordering st req opt) (hm : m ∈ req ++ opt) :
    m.piece.first ∉ m.piece.rest :=
  (List.nodup_cons.1 ((List.nodup_flatMap.1 h.nodup_placementsOf).1 m hm)).1

/-- **A placement tells the member.** -/
theorem member_ext (h : Compilation cat q targets ordering st req opt) (hm : m ∈ req ++ opt)
    (hn : n ∈ req ++ opt) (hp : p ∈ m.piece.placements) (hp' : p ∈ n.piece.placements) : m = n := by
  have hsymm : Std.Symm (Function.onFun List.Disjoint fun m : Member => m.piece.placements) :=
    ⟨fun _ _ hd => List.Disjoint.symm hd⟩
  by_contra hne
  exact (List.nodup_flatMap.1 h.nodup_placementsOf).2.forall hm hn hne hp hp'

end Compilation

/-- A target has the column that its variable is bound to. -/
theorem targetColumn_eq_ok {all : Bindings} {v : String} {c : Column} :
    targetColumn all v = .ok c ↔ all.column? v = some c := by
  unfold targetColumn
  split
  · next d hd => simp [hd]
  · next hd => simp [hd]

/-- The ordering column of a statement is that of the variable that the ordering is by. -/
theorem exists_of_orderColumn {all : Bindings} {ordering : Option (String × Direction)} {order : Option OrderBy}
    {o : OrderBy} (h : orderColumn all ordering = .ok order) (ho : o ∈ order) :
    ∃ v, (v, o.direction) ∈ ordering ∧ all.column? v = some o.column := by
  cases ordering with
  | none =>
    cases h
    cases ho
  | some t =>
    obtain ⟨c, hc, rfl⟩ := map_eq_ok_except.1 h
    cases ho
    exact ⟨t.1, rfl, targetColumn_eq_ok.1 hc⟩

/-- **What a statement consists of:** the tree of its elements joined in order, the columns of its targets and of its
ordering, and the conditions that are left. -/
theorem statement_eq_ok_iff {cat : Catalog} {q : Query} {targets : List String}
    {ordering : Option (String × Direction)} {st : Statement} {s s' : Scope} :
    statement cat q targets ordering s = .ok st s' ↔
      ∃ core s₁ a all, requireEach cat none q.required s = .ok (some core) s₁ ∧
        allowEach cat core s₁.bindings q.optional s₁ = .ok (a, all) s' ∧
        targets.mapM (targetColumn all) = .ok st.select ∧ orderColumn all ordering = .ok st.ordering ∧
        st.tables = a.tree ∧ st.conditions = Condition.pushAll s'.constants.conditions a.residual := by
  constructor
  · intro h
    obtain ⟨core?, s₁, hrequire, h₁⟩ := Step.bind_eq_ok.1 h
    cases core? with
    | none => exact absurd h₁ Step.throw_ne_ok
    | some core =>
      simp only [Step.bind_eq_ok, Step.get_eq_ok, Step.ofExcept_eq_ok, Step.pure_eq_ok] at h₁
      obtain ⟨_, _, ⟨rfl, rfl⟩, ⟨a, all⟩, s₂, hallow, select, _, ⟨hselect, rfl⟩, order, _, ⟨horder, rfl⟩, _, _,
        ⟨rfl, rfl⟩, rfl, rfl⟩ := h₁
      exact ⟨core, s₁, a, all, hrequire, hallow, hselect, horder, rfl, rfl⟩
  · rintro ⟨core, s₁, a, all, hrequire, hallow, hselect, horder, htables, hconditions⟩
    obtain ⟨select, tables, conditions, order⟩ := st
    subst htables hconditions
    refine Step.bind_eq_ok.2 ⟨some core, s₁, hrequire, ?_⟩
    simp only [Step.bind_eq_ok, Step.get_eq_ok, Step.ofExcept_eq_ok, Step.pure_eq_ok]
    exact ⟨_, _, ⟨rfl, rfl⟩, _, _, hallow, _, _, ⟨hselect, rfl⟩, _, _, ⟨horder, rfl⟩, _, _, ⟨rfl, rfl⟩, rfl, rfl⟩

/-- **What the runs over the elements leave is a compilation** of the statement that is made of it. -/
theorem Compilation.of_extended {cat : Catalog} {q : Query} {targets : List String}
    {ordering : Option (String × Direction)} {st : Statement} {req opt : List Member} {core a : Assembly}
    {all : Bindings} {s₁ s : Scope} (hreq : Standing cat q.required req core s₁)
    (hopt : Extended cat req core q.optional opt a all s) (hselect : targets.mapM (targetColumn all) = .ok st.select)
    (horder : orderColumn all ordering = .ok st.ordering) (htables : st.tables = a.tree)
    (hconditions : st.conditions = Condition.pushAll s.constants.conditions a.residual) :
    Compilation cat q targets ordering st req opt := by
  obtain ⟨select, tables, conditions, order⟩ := st
  subst htables hconditions
  constructor
  case required => exact hreq.members
  case optional => exact hopt.members
  case requiredBases => exact hreq.bases
  case optionalBases => exact hopt.bases
  case requiredKinds => exact hreq.kinds
  case optionalKinds => exact hopt.kinds
  case nodup => exact hopt.taken ▸ hopt.fresh.nodup
  case tree => exact ⟨core.tree, hreq.inner, hreq.wellScoped, hreq.parts, hopt.tree⟩
  case wellScoped => exact hopt.wellScoped
  case grounds =>
    intro e he
    rcases Condition.mem_pushAll he with he | he
    · obtain ⟨b, hb⟩ := Constants.mem_conditions he
      obtain ⟨m, hm, c, x, hc, -, rfl⟩ := hopt.waiting hb
      exact ⟨m, hm, .constant hc⟩
    · exact hreq.residual e (hopt.residual ▸ he)
  case requiredEnforced =>
    intro m hm
    refine (hopt.required m hm).mono fun he => he.trans fun d hd => ?_
    rcases List.mem_append.1 hd with hd | hd
    · exact Condition.has_of_mem (List.mem_append_left _ hd)
    · refine Condition.has_append.2 (.inr ?_)
      rcases List.mem_append.1 hd with hd | hd
      · exact Condition.has_pushAll (hopt.residual.symm ▸ hd)
      · obtain ⟨b, hb⟩ := Scope.mem_waiting.1 hd
        exact (Constants.has_conditions hb).mono fun e he => Condition.mem_pushAll_of_mem he _
  case optionalEnforced => exact hopt.enforced
  case select =>
    refine (mapM_eq_ok_except.1 hselect).imp fun v c hv => ?_
    rw [← hopt.all]
    exact targetColumn_eq_ok.1 hv
  case ordering =>
    intro o ho
    obtain ⟨v, -, hv⟩ := exists_of_orderColumn horder ho
    exact ⟨v, hopt.all v ▸ hv⟩

/-- **How a statement came about:** what stands when the required elements are joined, and what stands at the end. -/
structure Course (cat : Catalog) (q : Query) (targets : List String) (ordering : Option (String × Direction))
    (st : Statement) where
  req : List Member
  opt : List Member
  core : Assembly
  middle : Scope
  last : Assembly
  all : Bindings
  final : Scope
  required : requireEach cat none q.required {} = .ok (some core) middle
  optional : allowEach cat core middle.bindings q.optional middle = .ok (last, all) final
  standing : Standing cat q.required req core middle
  extended : Extended cat req core q.optional opt last all final
  select : targets.mapM (targetColumn all) = .ok st.select
  order : orderColumn all ordering = .ok st.ordering
  tables : st.tables = last.tree
  conditions : st.conditions = Condition.pushAll final.constants.conditions last.residual

/-- **A run that succeeds compiles the query,** with the members that it joined. -/
theorem Course.compilation {cat : Catalog} {q : Query} {targets : List String}
    {ordering : Option (String × Direction)} {st : Statement} (r : Course cat q targets ordering st) :
    Compilation cat q targets ordering st r.req r.opt :=
  .of_extended r.standing r.extended r.select r.order r.tables r.conditions

/-- **Every statement that compiles came about so.** -/
theorem nonempty_course {cat : Catalog} {q : Query} {targets : List String}
    {ordering : Option (String × Direction)} {st : Statement} {s : Scope}
    (h : statement cat q targets ordering {} = .ok st s) : Nonempty (Course cat q targets ordering st) := by
  obtain ⟨core, s₁, a, all, hrequire, hallow, hselect, horder, htables, hconditions⟩ := statement_eq_ok_iff.1 h
  obtain ⟨req, hreq⟩ := requireEach_eq_ok hrequire
  obtain ⟨opt, hopt⟩ := allowEach_eq_ok hreq.members (Extended.of_standing hreq) hallow
  exact ⟨⟨req, opt, core, s₁, a, all, s, hrequire, hallow, hreq, hopt, hselect, horder, htables, hconditions⟩⟩

/-- **Every statement that compiles is made of members.** -/
theorem statement_eq_ok {cat : Catalog} {q : Query} {targets : List String}
    {ordering : Option (String × Direction)} {st : Statement} {s : Scope}
    (h : statement cat q targets ordering {} = .ok st s) :
    ∃ req opt, Compilation cat q targets ordering st req opt := by
  obtain ⟨r⟩ := nonempty_course h
  exact ⟨r.req, r.opt, r.compilation⟩

/-- A session builds the statement of its query, once there are targets. -/
theorem Session.build_eq_ok {S : Session} {st : Statement} (h : S.build.1 = .ok st) :
    S.targets ≠ [] ∧ ∃ s, statement S.catalog S.query S.targets S.ordering {} = .ok st s := by
  unfold Session.build at h
  split at h
  · cases h
  · next hne =>
    split at h
    · next r s hs => cases h; exact ⟨hne, s, hs⟩
    · cases h

end Compile
end TripleSql
