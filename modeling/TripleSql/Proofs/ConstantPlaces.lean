/-
# Where the constants of a statement stand

The condition of a constant of a triple pattern stands once in the whole statement (`Session.build_constants`):

| element | triple pattern | the condition stands |
| --- | --- | --- |
| optional | any | at a join inside the element, or where the element is joined |
| required | joined, or the first one with a variable where others are joined | at a join inside the element |
| required | any other | in `WHERE` |

Within the element it is settled by the fragment (`fragment_settled`). What waits after a required element is not touched
by the elements after it, so it is there at the end, and what waits after an optional one is taken where the element is
joined. No other element has the condition: its column is that of one placement. And no filter has it, nor what elements
give to `WHERE` besides (`Assembly.ReadsVariables`): they read columns of variables.
-/

import TripleSql.Proofs.Folding
import TripleSql.Proofs.Origins
import TripleSql.Proofs.RepeatedVariables

namespace TripleSql
namespace Compile

open Pattern Sql

section Residual

variable {cat : Catalog} {gp : GraphPattern} {es done : List Element} {ms : List Member} {a a' : Assembly}
  {a'? : Option Assembly} {f : Fragment} {s s' : Scope}

/-- What is to stand in `WHERE` says of no column that it has a value, unless it is one of a variable. -/
def Assembly.ReadsVariables (a : Assembly) : Prop :=
  ∀ c x, Condition.columnIs c x ∈ a.residual → ∃ v, (v, c) ∈ a.columns

/-- What the first required fragment leaves for `WHERE` gives values to columns of variables alone. -/
theorem readsVariables_start (hcat : cat.check = .ok ()) (hf : fragment cat gp {} = .ok f s) :
    (Assembly.start f).ReadsVariables := by
  obtain ⟨y, hy, -, -, hleft⟩ := fragment_settled hcat Scope.fresh_empty hf
  intro c x he
  rcases List.mem_append.1 (Condition.mem_distinct he) with he | he
  · obtain ⟨⟨b, -, hb⟩, -⟩ := Reaches.of_mem_outer Scope.fresh_empty hf _ he
    cases hb
  · obtain ⟨v, hv⟩ := hleft he
    refine ⟨v, (hy.mem_columns _).2 (hv.base_or_mem.resolve_left fun hv => ?_)⟩
    rw [hy.base_eq] at hv
    cases hv

/-- A required element gives its filters to `WHERE`, which read columns of variables. -/
theorem Assembly.ReadsVariables.require (h : a.ReadsVariables) (hcat : cat.check = .ok ())
    (hs : Standing cat es ms a s) (hf : fragment cat gp s = .ok f s') (ha : a.require f s'.bindings = .ok a') :
    a'.ReadsVariables := by
  obtain ⟨y, hy, -, -, hleft⟩ := fragment_settled hcat hs.fresh hf
  rw [eq_of_attach ha]
  intro c x he
  simp only [mem_addColumns]
  rcases Condition.mem_pushAll he with he | he
  · obtain ⟨v, hv⟩ := h c x he
    exact ⟨v, .inl hv⟩
  · obtain ⟨v, hv⟩ := hleft he
    refine ⟨v, hv.base_or_mem.imp (fun hv => ?_) (hy.mem_columns _).2⟩
    rw [hy.base_eq] at hv
    exact hs.knows.bound hv

/-- What required elements leave for `WHERE` gives values to columns of variables alone. -/
theorem Assembly.ReadsVariables.requireEach (h : a.ReadsVariables) (hcat : cat.check = .ok ())
    (hs : Standing cat done ms a s) (hrun : Compile.requireEach cat (some a) es s = .ok a'? s') :
    ∀ a' ∈ a'?, a'.ReadsVariables := by
  induction es generalizing a s done ms with
  | nil =>
    obtain ⟨rfl, -⟩ := Step.pure_eq_ok.1 hrun
    rintro _ ⟨⟩
    exact h
  | cons e es ih =>
    obtain ⟨a₁, s₁, h₁, h₂⟩ := Step.bind_eq_ok.1 hrun
    obtain ⟨gp, f, rfl, hf, ha⟩ := requireElement_some_eq_ok h₁
    obtain ⟨x, hx⟩ := fragment_eq_ok hs.fresh hf
    obtain ⟨m, hm⟩ := hs.require hx ha
    exact ih (h.require hcat hs hf ha) hm h₂

/-- **What the required elements give to `WHERE` besides their constants** reads columns of variables. -/
theorem readsVariables_of_requireEach (hcat : cat.check = .ok ())
    (h : requireEach cat none es {} = .ok (some a) s) : a.ReadsVariables := by
  cases es with
  | nil =>
    obtain ⟨h, -⟩ := Step.pure_eq_ok.1 h
    cases h
  | cons e es =>
    obtain ⟨a₁, s₁, h₁, h₂⟩ := Step.bind_eq_ok.1 h
    obtain ⟨gp, f, rfl, hf, rfl⟩ := requireElement_none_eq_ok h₁
    obtain ⟨x, hx⟩ := fragment_eq_ok Scope.fresh_empty hf
    exact (readsVariables_start hcat hf).requireEach hcat (standing_start hx) h₂ a rfl

end Residual

section Element

variable {cat : Catalog} {gp : GraphPattern} {known : List String} {more : List Condition} {base s : Scope}
  {f : Fragment} {x y : Piece} {m : Member} {t : JoinTree} {p p' : Placement} {a b : String} {c : Column} {j : Nat}

/-- A placement is known by its triple pattern and its table. -/
theorem Placement.Of.ext (hp : p.Of cat) (hp' : p'.Of cat) (htriple : p.triple = p'.triple)
    (htable : p.table = p'.table) : p = p' := by
  have halias : p.aliasName = p'.aliasName := congrArg Table.aliasName htable
  have hsubject : p.subject = p'.subject := by rw [hp.subject, hp'.subject, halias]
  have hobject : p.object = p'.object := by rw [hp.object, hp'.object, halias]
  cases p
  cases p'
  exact (Placement.mk.injEq ..).mpr ⟨htriple, htable, hsubject, hobject⟩

/-- Placements are said by their triple patterns and tables. -/
theorem placements_ext {ps ps' : List Placement} (hp : ∀ p ∈ ps, p.Of cat) (hp' : ∀ p ∈ ps', p.Of cat)
    (htriples : ps.map Placement.triple = ps'.map Placement.triple)
    (htables : ps.map Placement.table = ps'.map Placement.table) : ps = ps' := by
  induction ps generalizing ps' with
  | nil => exact (List.map_eq_nil_iff.1 htables.symm).symm
  | cons p ps ih =>
    cases ps' with
    | nil => cases htables
    | cons p' ps' =>
      obtain ⟨htriple, htriples⟩ := List.cons.inj htriples
      obtain ⟨htable, htables⟩ := List.cons.inj htables
      obtain ⟨hof, hp⟩ := List.forall_mem_cons.1 hp
      obtain ⟨hof', hp'⟩ := List.forall_mem_cons.1 hp'
      rw [hof.ext hof' htriple htable, ih hp hp' htriples htables]

/-- What is settled for a piece is settled for one with the same placements. -/
theorem Settled.congr (h : Settled x t s) (hxy : x.placements = y.placements) : Settled y t s := by
  obtain ⟨-, hrest⟩ := List.cons.inj hxy
  have hfolds : ∀ p, x.Folds p ↔ y.Folds p := fun p => by rw [Piece.Folds, Piece.Folds, hrest]
  constructor
  case tree =>
    intro p a c hp hc
    rw [h.tree (hxy ▸ hp) hc]
    simp only [hfolds]
  case waits =>
    intro p a c hp hc
    rw [h.waits (hxy ▸ hp) hc, hfolds]

/-- **When the constants of a placement are taken by a join,** said of its triple pattern and where it stands. -/
theorem Member.Of.folds_iff (h : m.Of cat gp) (hp : m.piece.placements[j]? = some p) :
    m.piece.Folds p ↔ 2 ≤ gp.triples.length ∧ (j ≠ 0 ∨ p.triple.vars ≠ []) := by
  have hlength : gp.triples.length = m.piece.rest.length + 1 := by
    rw [← h.triples_perm.length_eq, List.length_map]
    rfl
  rw [hlength, Piece.Folds, Placement.columns_ne_nil_iff, ← List.length_pos_iff]
  refine and_congr (by omega) ⟨.inr, fun hj => hj.elim (fun hj => ?_) id⟩
  -- A placement after the first one was reached by a variable.
  obtain ⟨j, rfl⟩ := Nat.exists_eq_succ_of_ne_zero hj
  have htriples := h.triples
  rw [joinOrder] at htriples
  split at htriples
  · cases htriples
  · obtain ⟨-, hrest⟩ := List.cons.inj htriples
    have hmem : p ∈ m.piece.rest := List.mem_of_getElem? (i := j) hp
    exact vars_ne_nil_of_arrange (hrest ▸ List.mem_map_of_mem (f := Placement.triple) hmem)

/-- What waits under an alias of an element on the column of a constant waits under the alias of the column. -/
theorem Compiled.eq_of_mem_under (h : Compiled cat gp base x f s) (hbase : base.Fresh) (hb : b ∈ f.tree.aliases)
    (he : Condition.columnIs c a ∈ s.constants.under b) : b = c.tableAlias := by
  rw [h.tree_aliases] at hb
  rcases h.waiting he with he | ⟨d, a', -, hd, he⟩
  · exact absurd (hbase.constants he) (h.not_mem_taken hb)
  · rw [hd, (Condition.columnIs_inj.1 he).1]

/-- **Where the constants of an element are** when its part is joined: its tree has settled them, and the join holds none
but those that are added to it. -/
theorem Origin.settled (h : Origin cat gp known more m.part base f s) (hcat : cat.check = .ok ()) (hm : m.Of cat gp)
    (hknown : ∀ v, v ∈ m.piece.base.vars ↔ v ∈ known) : Settled m.piece m.part.tree s ∧
      ∀ {c a}, m.piece.Constant c a → c.tableAlias ∈ s.aliases.taken ∧ Condition.columnIs c a ∉ f.leftover ∧
        (Condition.columnIs c a ∈ m.part.on → Condition.columnIs c a ∈ more) := by
  obtain ⟨x, hx, hsettled, hconstant, hleft⟩ := fragment_settled hcat h.fresh h.compiled
  have hplacements : x.placements = m.piece.placements := by
    refine placements_ext hx.placed hm.placed ?_ ?_
    · rw [hx.triples, hm.triples]
      exact joinOrder_congr (fun v => (h.known v).trans (hknown v).symm) gp
    · rw [← hx.tables, ← hm.tables, h.tree]
  refine ⟨h.tree ▸ hsettled.congr hplacements, fun {c a} ⟨p, hp, hc⟩ => ?_⟩
  rw [← hplacements] at hp
  obtain ⟨houter, hcolumn⟩ := hconstant ⟨p, hp, hc⟩
  refine ⟨?_, fun he => ?_, fun he => ?_⟩
  · rw [hx.taken, (hx.placed p hp).tableAlias_eq hc]
    exact List.mem_append_right _ (List.mem_map_of_mem hp)
  · obtain ⟨v, hv⟩ := hleft he
    exact hcolumn v hv
  · rcases h.on _ he with ⟨_, _, he⟩ | he | he
    · cases he
    · exact absurd he houter
    · exact he

end Element

namespace Compilation

variable {cat : Catalog} {q : Query} {targets : List String} {ordering : Option (String × Direction)}
  {st : Statement} {req opt : List Member} {m n : Member} {v a b : String} {c : Column} {cs : List Condition}

/-- The column of a constant is no column of a variable, in any element. -/
theorem not_mem_columns (h : Compilation cat q targets ordering st req opt) (hcat : cat.check = .ok ())
    (hm : m ∈ req ++ opt) (hc : m.piece.Constant c a) (hn : n ∈ req ++ opt) : (v, c) ∉ n.piece.columns := fun hv => by
  obtain ⟨p, hp, hs⟩ := hc
  obtain ⟨p', hp', hv⟩ := Piece.mem_columns.1 hv
  obtain rfl : p = p' := h.placement_eq_of_columns hm hp hn hp' hs (Placement.mem_columns.1 hv) rfl
  exact (h.members.placed hm p hp).not_mem_columns hcat hs hv

/-- **The column of a constant stands for no variable** in any element. -/
theorem not_column (h : Compilation cat q targets ordering st req opt) (hcat : cat.check = .ok ())
    (hm : m ∈ req ++ opt) (hc : m.piece.Constant c a) (hn : n ∈ req ++ opt) : ¬ n.piece.Column v c := fun hv => by
  rcases hv.base_or_mem with hv | hv
  · obtain ⟨n', hn', hl⟩ := h.exists_lookup_of_base hn hv
    exact h.not_mem_columns hcat hm hc (List.mem_append_left _ hn') (mem_of_lookup hl)
  · exact h.not_mem_columns hcat hm hc hn hv

/-- **That the column of a constant has a value is grounded in one element,** that of the constant. -/
theorem eq_of_grounds (h : Compilation cat q targets ordering st req opt) (hcat : cat.check = .ok ())
    (hm : m ∈ req ++ opt) (hc : m.piece.Constant c a) (hn : n ∈ req ++ opt)
    (he : n.piece.Grounds (Condition.columnIs c b)) : n = m := by
  rcases Grounded.reads he (.inl rfl) with ⟨v, hv⟩ | ⟨x, p', hp', hs'⟩
  · exact absurd hv (h.not_column hcat hm hc hn)
  · obtain ⟨p, hp, hs⟩ := hc
    obtain rfl : p' = p := h.placement_eq_of_columns hn hp' hm hp hs' hs rfl
    exact h.member_ext hn hm hp' hp

/-- Nothing in a statement is equivalent to the condition of a constant but that condition. -/
theorem mem_of_has (h : Compilation cat q targets ordering st req opt) (hcat : cat.check = .ok ())
    (hm : m ∈ req ++ opt) (hc : m.piece.Constant c a) (hcs : ∀ e ∈ cs, e ∈ st.tables.conditions ++ st.conditions)
    (he : Condition.Has cs (Condition.columnIs c a)) : Condition.columnIs c a ∈ cs := by
  obtain ⟨d, hd, he⟩ := he
  obtain ⟨n, hn, hg⟩ := h.exists_grounds (hcs d hd)
  exact hg.eq_of_isEquivalent (fun _ => h.not_column hcat hm hc hn) he ▸ hd

/-- **The joins have a constant as often as its element has it.** -/
theorem count_tables (h : Compilation cat q targets ordering st req opt) (hcat : cat.check = .ok ())
    (hm : m ∈ req ++ opt) (hc : m.piece.Constant c a) :
    st.tables.conditions.count (Condition.columnIs c a) = m.part.conditions.count (Condition.columnIs c a) := by
  rw [JoinTree.conditions_parts, h.parts_eq, List.flatMap_map]
  refine count_flatMap_eq h.nodup_members hm fun n hn he => ?_
  obtain ⟨gp, -, hof⟩ := h.members.exists_of_mem hn
  exact h.eq_of_grounds hcat hm hc hn (hof.grounds _ he)

/-- **`WHERE` has no constant of an optional element.** -/
theorem not_mem_conditions (h : Compilation cat q targets ordering st req opt) (hcat : cat.check = .ok ())
    (hm : m ∈ opt) (hc : m.piece.Constant c a) : Condition.columnIs c a ∉ st.conditions := fun he => by
  obtain ⟨n, hn, hg⟩ := h.grounds _ he
  obtain rfl := h.eq_of_grounds hcat (List.mem_append_right _ hm) hc (List.mem_append_left _ hn) hg
  exact List.disjoint_of_nodup_append h.nodup_members hn hm

end Compilation

namespace Course

variable {cat : Catalog} {q : Query} {targets : List String} {ordering : Option (String × Direction)} {st : Statement}
  {gp : GraphPattern} {m : Member} {p : Placement} {a : String} {c : Column} {i : Nat}

/-- No condition stands twice in `WHERE`. -/
theorem nodup_conditions (r : Course cat q targets ordering st) : st.conditions.Nodup :=
  r.conditions ▸ Condition.nodup_pushAll (Condition.nodup_distinct _) _

/-- **A constant that stands in `WHERE` waited** after its element. -/
theorem mem_under_of_mem_conditions (r : Course cat q targets ordering st) (hcat : cat.check = .ok ()) {s : Scope}
    (hs : s.IsKeptIn r.final) (hm : m ∈ r.req) (hc : m.piece.Constant c a) (htaken : c.tableAlias ∈ s.aliases.taken)
    (he : Condition.columnIs c a ∈ st.conditions) : Condition.columnIs c a ∈ s.constants.under c.tableAlias := by
  rw [r.conditions] at he
  rcases Condition.mem_pushAll he with he | he
  · obtain ⟨b, hb⟩ := Constants.mem_conditions he
    obtain ⟨-, -, d, x, -, rfl, he⟩ := r.extended.waiting hb
    rwa [← (Condition.columnIs_inj.1 he).1, hs.constants _ htaken] at hb
  · rw [r.extended.residual] at he
    obtain ⟨v, hv⟩ := readsVariables_of_requireEach hcat r.required c a he
    obtain ⟨n, hn, hv⟩ := List.mem_flatMap.1 ((r.standing.mem_columns _).1 hv)
    exact absurd hv (r.compilation.not_mem_columns hcat (List.mem_append_left _ hm) hc (List.mem_append_left _ hn))

/-- **A constant of a required element stands in the tree of the element if a join took it, or else in `WHERE`.** -/
theorem count_of_required (r : Course cat q targets ordering st) (hcat : cat.check = .ok ())
    (hm : r.req[i]? = some m) (hi : q.required[i]? = some (.pattern gp)) (hof : m.Of cat gp)
    (hknown : ∀ v, v ∈ m.piece.base.vars ↔ v ∈ q.known i) (hp : p ∈ m.piece.placements)
    (hs : (.const a, c) ∈ p.slots) :
    m.part.tree.conditions.count (Condition.columnIs c a) = (if m.piece.Folds p then 1 else 0) ∧
      m.part.on.count (Condition.columnIs c a) = 0 ∧
      st.conditions.count (Condition.columnIs c a) = if m.piece.Folds p then 0 else 1 := by
  obtain ⟨base, f, s, horigin, hkept⟩ := r.exists_origin_of_required hm hi
  obtain ⟨hsettled, hrest⟩ := horigin.settled hcat hof hknown
  have hmem : m ∈ r.req := List.mem_of_getElem? hm
  have hc : m.piece.Constant c a := ⟨p, hp, hs⟩
  obtain ⟨htaken, -, hon⟩ := hrest hc
  have htree := hsettled.tree hp hs
  have hon : Condition.columnIs c a ∉ m.part.on := fun he => List.not_mem_nil (hon he)
  refine ⟨htree, List.count_eq_zero.2 hon, ?_⟩
  by_cases hfolds : m.piece.Folds p
  · rw [if_pos hfolds, List.count_eq_zero]
    intro he
    have hwaits := r.mem_under_of_mem_conditions hcat hkept hmem hc htaken he
    rw [(hof.placed p hp).tableAlias_eq hs] at hwaits
    exact (hsettled.waits hp hs).1 hwaits hfolds
  · rw [if_neg hfolds] at htree ⊢
    have hall := r.compilation.mem_of_has hcat (List.mem_append_left _ hmem) hc
      (r.compilation.conditions_subset (List.mem_append_left _ hmem))
      ((r.compilation.requiredEnforced m hmem).constants hc)
    have hpart : Condition.columnIs c a ∉ m.part.conditions := fun he =>
      (List.mem_append.1 he).elim (List.count_eq_zero.1 htree) hon
    exact List.count_eq_one_of_mem r.nodup_conditions ((List.mem_append.1 hall).resolve_left hpart)

/-- **A constant of an optional element stands once in the element** or where it is joined. -/
theorem count_of_optional (r : Course cat q targets ordering st) (hcat : cat.check = .ok ())
    (hm : r.opt[i]? = some m) (hi : q.optional[i]? = some (.pattern gp)) (hof : m.Of cat gp)
    (hknown : ∀ v, v ∈ m.piece.base.vars ↔ v ∈ q.required.flatMap Element.vars) (hp : p ∈ m.piece.placements)
    (hs : (.const a, c) ∈ p.slots) : m.part.conditions.count (Condition.columnIs c a) = 1 := by
  obtain ⟨base, f, s, horigin⟩ := r.exists_origin_of_optional hm hi
  obtain ⟨hsettled, hrest⟩ := horigin.settled hcat hof hknown
  have hmem : m ∈ r.opt := List.mem_of_getElem? hm
  have hc : m.piece.Constant c a := ⟨p, hp, hs⟩
  obtain ⟨-, hleft, hon⟩ := hrest hc
  have htree := hsettled.tree hp hs
  rw [Part.conditions, List.count_append, htree]
  by_cases hfolds : m.piece.Folds p
  · -- What a join took does not wait when the element is joined.
    rw [if_pos hfolds, List.count_eq_zero.2 fun he => ?_]
    obtain ⟨b, hb, he⟩ := Constants.mem_takeAll.1 ((List.mem_append.1 (hon he)).resolve_right hleft)
    obtain ⟨x, hx⟩ := fragment_eq_ok horigin.fresh horigin.compiled
    rw [hx.eq_of_mem_under horigin.fresh hb he, (hof.placed p hp).tableAlias_eq hs] at he
    exact (hsettled.waits hp hs).1 he hfolds
  · rw [if_neg hfolds] at htree ⊢
    have hall := r.compilation.mem_of_has hcat (List.mem_append_right _ hmem) hc
      (fun e he => r.compilation.conditions_subset (List.mem_append_right _ hmem) e (List.mem_append_left _ he))
      ((r.compilation.optionalEnforced m hmem).constants hc)
    have hjoin := (List.mem_append.1 hall).resolve_left (List.count_eq_zero.1 htree)
    rw [List.count_eq_one_of_mem horigin.nodup hjoin]

end Course

/-- What stands for a triple pattern of an element: the placement in its member, and the table in its part. -/
theorem Compilation.exists_placement {cat : Catalog} {q : Query} {targets : List String}
    {ordering : Option (String × Direction)} {st : Statement} {req opt : List Member} {i j : Nat} {gp : GraphPattern}
    {t : Triple} (h : Compilation cat q targets ordering st req opt)
    (hi : (q.required ++ q.optional)[i]? = some (.pattern gp)) (hj : (joinOrder (q.known i) gp)[j]? = some t) :
    ∃ m p, (req ++ opt)[i]? = some m ∧ m.Of cat gp ∧ (∀ v, v ∈ m.piece.base.vars ↔ v ∈ q.known i) ∧
      m.piece.placements[j]? = some p ∧ p.triple = t ∧ st.tables.parts[i]? = some m.part ∧
      m.part.tree.tables[j]? = some p.table ∧ (joinOrder (q.known i) gp).Perm gp.triples := by
  obtain ⟨m, hm, hof, hknown⟩ := h.exists_member hi
  have horder : joinOrder (q.known i) gp = m.piece.placements.map Placement.triple := by
    rw [hof.triples, joinOrder_congr hknown]
  rw [horder, List.getElem?_map, Option.map_eq_some_iff] at hj
  obtain ⟨p, hp, htriple⟩ := hj
  refine ⟨m, p, hm, hof, hknown, hp, htriple, ?_, ?_, horder ▸ hof.triples_perm⟩
  · rw [h.parts_eq, List.getElem?_map, hm]
    rfl
  · rw [hof.tables, List.getElem?_map, hp]
    rfl

/-- **Each constant is enforced once, and in the right clause.** Over an admitted catalog, take the triple pattern that is
the `j`-th one to be joined of the `i`-th element. The condition of a constant of it, on its own table, stands once in
all of the statement: for an optional element inside its part or where that is joined, for a required one inside its part
if there are several triple patterns and this one is not the first or has a variable, and in `WHERE` if not. -/
theorem Session.build_constants {S : Session} {st : Statement} (hcat : S.catalog.check = .ok ())
    (h : S.build.1 = .ok st) {i j : Nat} {gp : GraphPattern} {t : Triple}
    (hi : (S.query.required ++ S.query.optional)[i]? = some (.pattern gp))
    (hj : (joinOrder (S.query.known i) gp)[j]? = some t) :
    (joinOrder (S.query.known i) gp).Perm gp.triples ∧
      ∃ p table, st.tables.parts[i]? = some p ∧ p.tree.tables[j]? = some table ∧
        S.catalog.tableOf? t = some table.name ∧
        ∀ x column, (.const x, column) ∈ [(t.subject, S.catalog.subjectColumn), (t.object, S.catalog.objectColumn)] →
          let e := Condition.columnIs ⟨table.aliasName, column⟩ x
          (st.tables.conditions ++ st.conditions).count e = 1 ∧
            if i < S.query.required.length then
              if 2 ≤ gp.triples.length ∧ (j ≠ 0 ∨ t.vars ≠ []) then e ∈ p.tree.conditions else e ∈ st.conditions
            else p.kind = .leftOuter ∧ e ∈ p.conditions := by
  obtain ⟨-, s, hstmt⟩ := Session.build_eq_ok h
  obtain ⟨r⟩ := nonempty_course hstmt
  have hcompiled := r.compilation
  obtain ⟨m, p, hm, hof, hknown, hp, rfl, hpart, htable, hperm⟩ := hcompiled.exists_placement hi hj
  have hmem : m ∈ r.req ++ r.opt := List.mem_of_getElem? hm
  have hplaced : p ∈ m.piece.placements := List.mem_of_getElem? hp
  have hpof := hof.placed p hplaced
  refine ⟨hperm, m.part, p.table, hpart, htable, hpof.tableOf?_eq, fun x column hx => ?_⟩
  have hs : (.const x, ⟨p.aliasName, column⟩) ∈ p.slots := by
    rw [Placement.mem_slots, hpof.subject, hpof.object]
    simpa using hx
  change (st.tables.conditions ++ st.conditions).count (Condition.columnIs ⟨p.aliasName, column⟩ x) = 1 ∧ _
  rw [List.count_append, hcompiled.count_tables hcat hmem ⟨p, hplaced, hs⟩]
  -- A required element shares its constants with `WHERE`, an optional one keeps them.
  by_cases hlt : i < S.query.required.length
  · rw [List.getElem?_append_left hlt] at hi
    rw [List.getElem?_append_left (hcompiled.required.length_eq ▸ hlt)] at hm
    obtain ⟨htree, hon, hwhere⟩ := r.count_of_required hcat hm hi hof hknown hplaced hs
    rw [if_pos hlt, Part.conditions, List.count_append, htree, hon, hwhere]
    by_cases hfolds : m.piece.Folds p
    · rw [if_pos hfolds] at htree
      rw [if_pos hfolds, if_pos hfolds, if_pos ((hof.folds_iff hp).1 hfolds)]
      exact ⟨rfl, List.count_pos_iff.1 (htree ▸ Nat.one_pos)⟩
    · rw [if_neg hfolds] at hwhere
      rw [if_neg hfolds, if_neg hfolds, if_neg (mt (hof.folds_iff hp).2 hfolds)]
      exact ⟨rfl, List.count_pos_iff.1 (hwhere ▸ Nat.one_pos)⟩
  · have hge : S.query.required.length ≤ i := Nat.le_of_not_lt hlt
    rw [List.getElem?_append_right hge] at hi
    rw [List.getElem?_append_right (hcompiled.required.length_eq ▸ hge), ← hcompiled.required.length_eq] at hm
    have hopt : m ∈ r.opt := List.mem_of_getElem? hm
    rw [Query.known, List.take_of_length_le hge] at hknown
    have hcount := r.count_of_optional hcat hm hi hof hknown hplaced hs
    rw [if_neg hlt, hcount, List.count_eq_zero.2 (hcompiled.not_mem_conditions hcat hopt ⟨p, hplaced, hs⟩)]
    exact ⟨rfl, hcompiled.optionalKinds m hopt, List.count_pos_iff.1 (hcount ▸ Nat.one_pos)⟩

/-- The constant of `friends` stands once, in the tree of its element, on the alias of its own table. -/
theorem Session.friends_constants : ∃ (st : Statement) (p : Part) (table : Table), friends.build.1 = .ok st ∧
    st.tables.parts[1]? = some p ∧ p.tree.tables[0]? = some table ∧
    let e := Condition.columnIs ⟨table.aliasName, "o"⟩ "Ada"
    (st.tables.conditions ++ st.conditions).count e = 1 ∧ e ∈ p.tree.conditions := by
  obtain ⟨st, h⟩ := exists_build_friends
  obtain ⟨-, p, table, hp, htable, -, hconstants⟩ := build_constants (i := 1) (j := 0) (by decide +kernel) h rfl rfl
  obtain ⟨hcount, hclause⟩ := hconstants "Ada" "o" (by decide)
  have hrequired : 1 < friends.query.required.length := by decide
  rw [if_pos hrequired, if_pos ⟨le_refl 2, .inr (by decide)⟩] at hclause
  exact ⟨st, p, table, h, hp, htable, hcount, hclause⟩

end Compile
end TripleSql
