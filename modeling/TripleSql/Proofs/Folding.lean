/-
# Where the constants of a graph pattern go

A constant is recorded when its triple pattern is placed, and it waits under the alias of the placement. A joined
placement names its constants once more, among the conditions of its own join. What becomes of them inside the fragment:

| placement | the constant stands | and waits on |
| --- | --- | --- |
| joined | at its own join, named by the join and taken from what waits | no |
| first one, with a variable, and another one is joined | at the first join | no |
| first one, without a variable or alone | nowhere | yes |

A placement is reached by a variable, so one that is joined has a variable. A join takes what waits under the aliases of
the columns that variables have, so a placement without a variable keeps its constants. The conditions of a join are
kept free of equivalent ones, and no other condition is equivalent to that of a constant: each other one reads columns
of variables alone, and no variable stands on the column of a constant (`Grown.not_column`). So what stands in a fragment
stands there once (`Settled`), and nothing of it is left over or goes outside (`fragment_settled`).
-/

import TripleSql.Proofs.Detachment
import TripleSql.Proofs.Frames

namespace TripleSql

namespace Sql.Condition

variable {c d : Column} {a b : String}

/-- The condition of a constant tells its column and its value. -/
theorem columnIs_inj : columnIs c a = columnIs d b ↔ c = d ∧ a = b := by
  simp [columnIs]

/-- The condition of a constant is equivalent to itself alone: a literal on its right does not change sides. -/
theorem eq_of_isEquivalent_columnIs (h : (columnIs c a).isEquivalent (columnIs d b) = true) :
    columnIs c a = columnIs d b :=
  (isEquivalent_iff.1 h).resolve_right fun ⟨_, _, hl, _⟩ => nomatch hl

end Sql.Condition

namespace Compile

open Pattern Sql

/-- A column carries one node of a placement. -/
theorem Placement.Of.node_ext {cat : Catalog} {p : Placement} {n n' : Node} {c : Column} (hp : p.Of cat)
    (hcat : cat.check = .ok ()) (h : (n, c) ∈ p.slots) (h' : (n', c) ∈ p.slots) : n = n' := by
  have hne : p.subject ≠ p.object := fun he => by
    rw [hp.subject, hp.object] at he
    exact subjectColumn_ne_objectColumn hcat (congrArg Column.name he)
  rcases mem_slots.1 h with h | h <;> rcases mem_slots.1 h' with h' | h' <;>
    obtain ⟨rfl, hc⟩ := Prod.mk.inj h <;> obtain ⟨rfl, hc'⟩ := Prod.mk.inj h'
  · rfl
  · exact absurd (hc.symm.trans hc') hne
  · exact absurd (hc'.symm.trans hc) hne
  · rfl

/-- A constant and a variable do not stand on one column of a placement. -/
theorem Placement.Of.not_mem_columns {cat : Catalog} {p : Placement} {v a : String} {c : Column} (hp : p.Of cat)
    (hcat : cat.check = .ok ()) (h : (.const a, c) ∈ p.slots) : (v, c) ∉ p.columns := fun hv =>
  nomatch hp.node_ext hcat h (mem_columns.1 hv)

namespace Piece

variable {x : Piece} {c : Sql.Column} {a : String} {d : Condition}

/-- **Nothing else is equivalent to the condition of a constant** on a column on which no variable stands. -/
theorem Grounds.eq_of_isEquivalent (hd : x.Grounds d) (hc : ∀ v, ¬ x.Column v c)
    (h : d.isEquivalent (Condition.columnIs c a) = true) : d = Condition.columnIs c a := by
  rcases Condition.isEquivalent_iff.1 h with rfl | ⟨-, -, hl, hr⟩
  · rfl
  · cases hd with
    | constant _ => cases hl
    | equality _ _ => cases hl
    | filter _ he hcolumn =>
      obtain ⟨v, -, hv⟩ := operandOf?_eq_column.1 (hr ▸ (conditionOf?_eq_some.1 he).2.1)
      exact absurd (hcolumn v c hv) (hc v)

/-- Where a list has the condition of a constant, it has it as it is written, if no variable stands in the column. -/
theorem mem_of_has {cs : List Condition} (hcs : ∀ d ∈ cs, x.Grounds d) (hc : ∀ v, ¬ x.Column v c)
    (h : Condition.Has cs (Condition.columnIs c a)) : Condition.columnIs c a ∈ cs := by
  obtain ⟨d, hd, he⟩ := h
  exact (hcs d hd).eq_of_isEquivalent hc he ▸ hd

/-- A filter does not become the condition of a constant. -/
theorem ne_of_filter {column? : String → Option Sql.Column} {q : Filter} (hc : ∀ v, ¬ x.Column v c)
    (h : conditionOf? column? q = some d) (hcolumn : ∀ v c, column? v = some c → x.Column v c) :
    d ≠ Condition.columnIs c a := by
  rintro rfl
  obtain ⟨v, -, hv⟩ := operandOf?_eq_column.1 (conditionOf?_eq_some.1 h).1
  exact hc v (hcolumn v c hv)

/-- The constants of the placement are taken by a join: there is one, and the placement has a variable. -/
def Folds (x : Piece) (p : Placement) : Prop := x.rest ≠ [] ∧ p.columns ≠ []

instance (x : Piece) : DecidablePred x.Folds := fun p =>
  inferInstanceAs (Decidable (x.rest ≠ [] ∧ p.columns ≠ []))

/-- A placement that joins folds constants if one of its nodes is a variable. -/
theorem folds_push {p q : Placement} : (x.push q).Folds p ↔ p.columns ≠ [] :=
  and_iff_right (List.append_ne_nil_of_right_ne_nil _ (List.cons_ne_nil _ _))

end Piece

namespace Grown

variable {cat : Catalog} {base : Scope} {x : Piece} {g : Growth} {s : Scope} {p p' : Placement} {v a : String}
  {c : Column}

/-- What has grown has no alias twice. -/
theorem nodup_aliases (h : Grown cat base x g s) : x.aliases.Nodup := by
  have := h.fresh.nodup
  rw [h.taken] at this
  exact (List.nodup_append.1 this).2.1

/-- The aliases of what has grown were not taken before. -/
theorem not_mem_taken (h : Grown cat base x g s) (ha : a ∈ x.aliases) : a ∉ base.aliases.taken :=
  h.fresh.not_mem_of_taken h.taken ha

/-- The aliases of what has grown are taken now. -/
theorem aliasName_mem (h : Grown cat base x g s) (hp : p ∈ x.placements) : p.aliasName ∈ s.aliases.taken := by
  rw [h.taken]
  exact List.mem_append_right _ (List.mem_map_of_mem hp)

/-- A column tells the placement that it stands in. -/
theorem placement_ext (h : Grown cat base x g s) (hp : p ∈ x.placements) (hp' : p' ∈ x.placements) {n n' : Node}
    (hc : (n, c) ∈ p.slots) (hc' : (n', c) ∈ p'.slots) : p = p' := by
  have halias : c.tableAlias = p.aliasName := (h.placed p hp).tableAlias_eq hc
  have halias' : c.tableAlias = p'.aliasName := (h.placed p' hp').tableAlias_eq hc'
  exact List.inj_on_of_nodup_map h.nodup_aliases hp hp' (halias.symm.trans halias')

/-- The column of a constant is one of a table that has joined. -/
theorem tableAlias_mem (h : Grown cat base x g s) (hc : x.Constant c a) : c.tableAlias ∈ x.aliases := by
  obtain ⟨p, hp, hs⟩ := hc
  exact List.mem_map.2 ⟨p, hp, ((h.placed p hp).tableAlias_eq hs).symm⟩

/-- **No variable stands on the column of a constant.** -/
theorem not_column (h : Grown cat base x g s) (hbase : base.Fresh) (hcat : cat.check = .ok ()) (hc : x.Constant c a)
    (v : String) : ¬ x.Column v c := by
  intro hv
  rcases hv.base_or_mem with hv | hv
  · rw [h.base_eq] at hv
    exact h.not_mem_taken (h.tableAlias_mem hc) (hbase.bindings hv)
  · obtain ⟨p, hp, hs⟩ := hc
    obtain ⟨p', hp', hv⟩ := Piece.mem_columns.1 hv
    obtain rfl := h.placement_ext hp hp' hs (Placement.mem_columns.1 hv)
    exact (h.placed p hp).not_mem_columns hcat hs hv

/-- A placement has a variable exactly if a variable of the piece has a column under its alias. -/
theorem columns_ne_nil_iff (h : Grown cat base x g s) (hp : p ∈ x.placements) :
    p.columns ≠ [] ↔ p.aliasName ∈ x.columns.map (·.2.tableAlias) := by
  constructor
  · intro hne
    obtain ⟨e, he⟩ := List.exists_mem_of_ne_nil _ hne
    exact List.mem_map.2 ⟨e, Piece.mem_columns.2 ⟨p, hp, he⟩, (h.placed p hp).tableAlias_eq_of_mem_columns he⟩
  · intro hmem
    obtain ⟨e, he, halias⟩ := List.mem_map.1 hmem
    obtain ⟨p', hp', he⟩ := Piece.mem_columns.1 he
    have hsame : p'.aliasName = p.aliasName :=
      ((h.placed p' hp').tableAlias_eq_of_mem_columns he).symm.trans halias
    obtain rfl := List.inj_on_of_nodup_map h.nodup_aliases hp' hp hsame
    exact List.ne_nil_of_mem he

end Grown

/-- **Each constant stands in a tree once or not at all,** and it waits exactly if it does not stand there. -/
structure Settled (x : Piece) (t : JoinTree) (s : Scope) : Prop where
  tree : ∀ {p a c}, p ∈ x.placements → (.const a, c) ∈ p.slots →
    t.conditions.count (Condition.columnIs c a) = if x.Folds p then 1 else 0
  waits : ∀ {p a c}, p ∈ x.placements → (.const a, c) ∈ p.slots →
    (Condition.columnIs c a ∈ s.constants.under p.aliasName ↔ ¬ x.Folds p)

section Join

variable {cat : Catalog} {base s s' : Scope} {x : Piece} {g : Growth} {p q : Placement} {t : Triple} {a : String}
  {c : Column}

/-- The constants of a placement wait under its alias. -/
theorem mem_under_place (hs : s.Fresh) (hp : place cat t s = .ok p s') (hc : (.const a, c) ∈ p.slots) :
    Condition.columnIs c a ∈ s'.constants.under p.aliasName := by
  obtain ⟨-, hof, hfree, -, -, hconstants⟩ := place_eq_ok hp
  rw [hconstants, ← hof.tableAlias_eq hc]
  obtain ⟨d, hd, he⟩ := Constants.has_under_addAll (k := s.constants) (Placement.mem_constants.2 hc)
  rcases Constants.mem_under_addAll hd with hold | ⟨c', a', -, -, rfl⟩
  · rw [hof.tableAlias_eq hc] at hold
    exact absurd (hs.constants hold) hfree
  · exact Condition.eq_of_isEquivalent_columnIs he ▸ hd

/-- What waits under the alias of another placement is not touched by placing one. -/
theorem under_place (hp : place cat t s = .ok p s') (ha : a ∈ s.aliases.taken) :
    s'.constants.under a = s.constants.under a := by
  obtain ⟨-, hof, hfree, -, -, hconstants⟩ := place_eq_ok hp
  rw [hconstants]
  refine Constants.under_addAll_of_ne fun e he hea => hfree ?_
  rw [← hof.tableAlias_eq (Placement.mem_constants.1 he), hea]
  exact ha

/-- A condition of a constant waits under the alias of its column alone. -/
theorem Holding.eq_of_mem_under (hh : Holding base x g s) (hg : Grown cat base x g s) (hbase : base.Fresh)
    (hp : place cat t s = .ok p s') {b : String} (hb : b ∈ (x.push p).aliases)
    (h : Condition.columnIs c a ∈ s'.constants.under b) : b = c.tableAlias := by
  rcases hh.waiting_place hp h with h | ⟨d, e, -, hd, he⟩
  · exact absurd (hbase.constants h) ((hg.step hp).not_mem_taken hb)
  · rw [hd, (Condition.columnIs_inj.1 he).1]

/-- A placement that joins is none of those before it. -/
theorem Grown.ne_of_place (hg : Grown cat base x g s) (hp : place cat t s = .ok p s') (hq : q ∈ x.placements) :
    q ≠ p := by
  obtain ⟨-, -, hfree, -⟩ := place_eq_ok hp
  exact fun he => hfree (he ▸ hg.aliasName_mem hq)

/-- The aliases that a join takes constants under are those of the placements that have a variable. -/
theorem Grown.aliasName_mem_columnsWith (hg : Grown cat base x g s) (hp : place cat t s = .ok p s')
    (hq : q ∈ (x.push p).placements) : q.aliasName ∈ (g.columnsWith p).map (·.2.tableAlias) ↔ q.columns ≠ [] := by
  have hgrown := hg.step hp
  rw [hgrown.columns_ne_nil_iff hq, List.mem_map, List.mem_map]
  exact exists_congr fun e => and_congr_left fun _ => hgrown.mem_columns e

/-- The tree has no constant of a placement that is not joined yet. -/
theorem Holding.not_mem_tree (hh : Holding base x g s) (hg : Grown cat base x g s) (hbase : base.Fresh)
    (hp : place cat t s = .ok p s') (hc : (.const a, c) ∈ p.slots) :
    Condition.columnIs c a ∉ g.fragment.tree.conditions := fun he => by
  obtain ⟨-, hof, hfree, -⟩ := place_eq_ok hp
  refine hfree (hg.taken ▸ (hh.grounds _ (List.mem_append_left _ he)).aliases_subset hg.placed (fun hv => ?_) _
    (Condition.mem_aliases.2 (.inl (congrArg some (hof.tableAlias_eq hc)))))
  rw [hg.base_eq] at hv
  exact hbase.bindings hv

/-- **Before a join** the constants of the joined placement wait, and those of the others as they did. -/
theorem Settled.waits_place {tree : JoinTree} (h : Settled x tree s) (hg : Grown cat base x g s)
    (hp : place cat t s = .ok p s') (hq : q ∈ (x.push p).placements) (hc : (.const a, c) ∈ q.slots) :
    Condition.columnIs c a ∈ s'.constants.under q.aliasName ↔ q = p ∨ ¬ x.Folds q := by
  rcases Piece.mem_placements_push.1 hq with hold | rfl
  · rw [under_place hp (hg.aliasName_mem hold), h.waits hold hc, or_iff_right (hg.ne_of_place hp hold)]
  · exact iff_of_true (mem_under_place hg.fresh hp hc) (.inl rfl)

/-- **When a join names a constant:** it is one of the joined placement, or it waits under an alias that is joined. -/
theorem mem_candidates_iff (hh : Holding base x g s) (hg : Grown cat base x g s) (hbase : base.Fresh)
    (hcat : cat.check = .ok ()) (hp : place cat t s = .ok p s') (hq : q ∈ (x.push p).placements)
    (hc : (.const a, c) ∈ q.slots) : Condition.columnIs c a ∈ g.candidates p s' ↔
      q = p ∨ q.columns ≠ [] ∧ Condition.columnIs c a ∈ s'.constants.under q.aliasName := by
  have hgrown := hg.step hp
  have hlast : p ∈ (x.push p).placements := Piece.mem_placements_push.2 (.inr rfl)
  -- No filter names the constant, for its column stands for no variable.
  have hnot := hgrown.not_column hbase hcat ⟨q, hq, hc⟩
  obtain ⟨-, -, -, -, hbindings, -⟩ := place_eq_ok hp
  rw [hg.bindings, ← Piece.bindings_push] at hbindings
  constructor
  · intro he
    rcases List.mem_append.1 he with he | he
    · rcases List.mem_append.1 he with he | he
      · obtain ⟨⟨n, d⟩, hslot, he⟩ := List.mem_flatMap.1 he
        rcases Fragment.mem_slotConditions he with ⟨b, hn, he⟩ | ⟨v, d', -, -, he⟩
        · obtain ⟨rfl, -⟩ := Condition.columnIs_inj.1 he
          exact .inl (hgrown.placement_ext hq hlast hc hslot)
        · cases he
      · obtain ⟨f, -, -, hf⟩ := Pending.mem_take he
        refine absurd rfl (Piece.ne_of_filter hnot hf fun v d hv => ?_)
        exact Piece.column_of_bindings (hbindings ▸ hv)
    · obtain ⟨b, hb, he⟩ := Constants.mem_takeAll.1 he
      obtain ⟨e, hmem, rfl⟩ := List.mem_map.1 hb
      have hown := Piece.tableAlias_mem hgrown.placed ((hgrown.mem_columns e).1 hmem)
      have halias := hh.eq_of_mem_under hg hbase hp hown he
      have hsame : c.tableAlias = q.aliasName := (hgrown.placed q hq).tableAlias_eq hc
      refine .inr ⟨(hg.aliasName_mem_columnsWith hp hq).1 ?_, by rwa [← hsame, ← halias]⟩
      exact List.mem_map.2 ⟨e, hmem, halias.trans hsame⟩
  · rintro (rfl | ⟨hne, he⟩)
    · refine List.mem_append_left _ (List.mem_append_left _ (List.mem_flatMap.2 ⟨_, hc, ?_⟩))
      exact List.mem_singleton_self _
    · have halias := (hg.aliasName_mem_columnsWith hp hq).2 hne
      exact List.mem_append_right _ (Constants.mem_takeAll.2 ⟨q.aliasName, halias, he⟩)

/-- **A join holds a constant that it names once,** and no other one. -/
theorem count_on (hh : Holding base x g s) (hg : Grown cat base x g s) (hbase : base.Fresh)
    (hcat : cat.check = .ok ()) (hp : place cat t s = .ok p s') (hc : (x.push p).Constant c a) :
    (g.on p s').count (Condition.columnIs c a) = if Condition.columnIs c a ∈ g.candidates p s' then 1 else 0 := by
  have hgrown := hg.step hp
  have hnodup : (g.on p s').Nodup := (Condition.nodup_distinct _).filter _
  have hmem : Condition.columnIs c a ∈ g.on p s' ↔ Condition.columnIs c a ∈ g.candidates p s' := by
    refine ⟨fun h => Condition.mem_distinct (List.mem_filter.1 h).1, fun h => List.mem_filter.2 ⟨?_, ?_⟩⟩
    · refine Piece.mem_of_has (x := x.push p) (fun d hd => ?_) (hgrown.not_column hbase hcat hc)
        (Condition.has_distinct h)
      exact hh.grounds_candidates hg hbase hp (Condition.mem_distinct hd)
    · refine Condition.isScopedTo_iff.2 fun b hb => ?_
      obtain rfl : b = c.tableAlias := List.mem_singleton.1 hb
      have halias := hgrown.tableAlias_mem hc
      rwa [Piece.aliases_push, ← hg.tree_aliases] at halias
  rw [hnodup.count]
  simp only [hmem]

/-- **One placement more, and each constant is settled again.** -/
theorem Settled.step (h : Settled x g.fragment.tree s) (hh : Holding base x g s) (hg : Grown cat base x g s)
    (hbase : base.Fresh) (hcat : cat.check = .ok ()) (hp : place cat t s = .ok p s') (hnamed : p.columns ≠ []) :
    Settled (x.push p) (g.join p s').1.fragment.tree (g.join p s').2 := by
  constructor
  case tree =>
    intro q a c hq hc
    have hjoined : (g.join p s').1.fragment.tree.conditions = g.fragment.tree.conditions ++ g.on p s' := by
      rw [Growth.tree_join, JoinTree.conditions, Source.conditions, List.append_nil]
    rw [hjoined, List.count_append, count_on hh hg hbase hcat hp ⟨q, hq, hc⟩]
    simp only [mem_candidates_iff hh hg hbase hcat hp hq hc, h.waits_place hg hp hq hc, Piece.folds_push]
    rcases Piece.mem_placements_push.1 hq with hold | rfl
    · have hne : q ≠ p := hg.ne_of_place hp hold
      rw [h.tree hold hc]
      by_cases hcolumns : q.columns = []
      · simp [hne, hcolumns, Piece.Folds]
      · by_cases hfolds : x.Folds q <;> simp [hne, hcolumns, hfolds]
    · rw [List.count_eq_zero.2 (hh.not_mem_tree hg hbase hp hc)]
      simp [hnamed]
  case waits =>
    intro q a c hq hc
    change Condition.columnIs c a ∈ (s'.constants.takeAll ((g.columnsWith p).map (·.2.tableAlias))).2.under _ ↔ _
    rw [Constants.under_takeAll, Piece.folds_push]
    by_cases hcolumns : q.columns = []
    · have hne : q ≠ p := fun he => hnamed (he ▸ hcolumns)
      have hjoined := mt (hg.aliasName_mem_columnsWith hp hq).1 (not_not_intro hcolumns)
      rw [if_neg hjoined, h.waits_place hg hp hq hc, or_iff_right hne]
      simp [hcolumns, Piece.Folds]
    · rw [if_pos ((hg.aliasName_mem_columnsWith hp hq).2 hcolumns)]
      simp [hcolumns]

end Join

/-- What is reached has a variable. -/
theorem vars_ne_nil_of_arrange {known : List String} {ts : List Triple} {t : Triple} (h : t ∈ (arrange known ts).1) :
    t.vars ≠ [] := by
  obtain ⟨l, r, hsplit⟩ := List.append_of_mem h
  obtain ⟨v, hv, -⟩ := List.any_eq_true.1 (reaches_of_arrange hsplit)
  exact List.ne_nil_of_mem hv

/-- A placement has a column of a variable if its triple pattern has a variable. -/
theorem Placement.columns_ne_nil_iff {p : Placement} : p.columns ≠ [] ↔ p.triple.vars ≠ [] := by
  constructor <;> intro h
  · obtain ⟨⟨v, c⟩, hc⟩ := List.exists_mem_of_ne_nil _ h
    exact List.ne_nil_of_mem (mem_vars.2 ⟨c, hc⟩)
  · obtain ⟨v, hv⟩ := List.exists_mem_of_ne_nil _ h
    obtain ⟨c, hc⟩ := mem_vars.1 hv
    exact List.ne_nil_of_mem hc

section Run

variable {cat : Catalog} {gp : GraphPattern} {base s s' : Scope} {x : Piece} {g g' : Growth} {f : Fragment}
  {t : Triple} {ts : List Triple} {p : Placement}

/-- The constants of the first placement wait. -/
theorem settled_single (hbase : base.Fresh) (hp : place cat t base = .ok p s) (filters : List Filter) :
    Settled ⟨base.bindings, p, [], filters⟩ (Fragment.single p).tree s where
  tree hq _ := by
    rw [if_neg fun hfolds => hfolds.1 rfl]
    exact List.count_nil
  waits hq hc := by
    obtain rfl := List.mem_singleton.1 hq
    exact iff_of_true (mem_under_place hbase hp hc) fun hfolds => hfolds.1 rfl

/-- **A run of placements settles each constant.** -/
theorem Settled.joinEach (hs : Settled x g.fragment.tree s) (hh : Holding base x g s) (hg : Grown cat base x g s)
    (hbase : base.Fresh) (hcat : cat.check = .ok ()) (hts : ∀ t ∈ ts, t.vars ≠ [])
    (h : Growth.joinEach cat g ts s = .ok g' s') : ∃ ps, ps.map Placement.triple = ts ∧
      Grown cat base { x with rest := x.rest ++ ps } g' s' ∧ Holding base { x with rest := x.rest ++ ps } g' s' ∧
      Settled { x with rest := x.rest ++ ps } g'.fragment.tree s' := by
  induction ts generalizing x g s with
  | nil =>
    obtain ⟨rfl, rfl⟩ := Step.pure_eq_ok.1 h
    exact ⟨[], rfl, by rwa [List.append_nil], by rwa [List.append_nil], by rwa [List.append_nil]⟩
  | cons t ts ih =>
    obtain ⟨ht, hts⟩ := List.forall_mem_cons.1 hts
    simp only [Growth.joinEach, Step.bind_eq_ok, Step.modifyGet_eq_ok] at h
    obtain ⟨p, s₁, hp, g₁, s₂, hj, h⟩ := h
    obtain ⟨rfl, rfl⟩ := Prod.ext_iff.1 hj
    obtain ⟨htriple, -⟩ := place_eq_ok hp
    have hnamed : p.columns ≠ [] := Placement.columns_ne_nil_iff.2 (htriple ▸ ht)
    obtain ⟨ps, hps, hg', hh', hs'⟩ := ih (hs.step hh hg hbase hcat hp hnamed) (hh.step hg hbase hp) (hg.step hp) hts h
    rw [Piece.push, List.append_assoc] at hg' hh' hs'
    exact ⟨p :: ps, by rw [List.map_cons, hps, htriple], hg', hh', hs'⟩

/-- **Where the constants of a graph pattern are when it is compiled:** in its tree or waiting. None goes outside, and
what is left over reads columns of variables. -/
theorem fragment_settled (hcat : cat.check = .ok ()) (hbase : base.Fresh) (h : fragment cat gp base = .ok f s) :
    ∃ x, Compiled cat gp base x f s ∧ Settled x f.tree s ∧
      (∀ {c a}, x.Constant c a → Condition.columnIs c a ∉ f.outer ∧ ∀ v, ¬ x.Column v c) ∧
      ∀ {c a}, Condition.columnIs c a ∈ f.leftover → ∃ v, x.Column v c := by
  obtain ⟨t, ts, pending, first, s₁, g, hgp, hpending, hfirst, hg, hall, hfinish⟩ := fragment_eq_ok_iff.1 h
  obtain ⟨filters, hfilters, rfl⟩ := map_eq_ok_except.1 hpending
  obtain ⟨htriple, -⟩ := place_eq_ok hfirst
  obtain ⟨hg₀, hh₀⟩ := grown_single hbase hfirst
  obtain ⟨ps, hps, hg, hh, hs⟩ := (settled_single hbase hfirst filters).joinEach hh₀ hg₀ hbase hcat
    (fun _ => vars_ne_nil_of_arrange) hg
  obtain ⟨htree, -, -, hleft, -⟩ := Growth.finish_eq_ok hfinish hg.leftover
  have htriples : (first :: ([] ++ ps)).map Placement.triple = joinOrder base.bindings.vars gp := by
    rw [List.map_cons, htriple, List.nil_append, hps, joinOrder, hgp]
  refine ⟨_, hg.compiled hh htriples (joinOrder_perm hgp hall) hfilters hfinish, htree ▸ hs, ?_, ?_⟩
  · intro c a hc
    refine ⟨fun hmem => ?_, hg.not_column hbase hcat hc⟩
    obtain ⟨⟨b, hb, htaken⟩, -⟩ := Reaches.of_mem_outer hbase h _ hmem
    obtain rfl := List.mem_singleton.1 hb
    exact hg.not_mem_taken (hg.tableAlias_mem hc) htaken
  · intro c a hmem
    obtain ⟨q, -, hq⟩ := hleft _ hmem
    obtain ⟨v, -, hv⟩ := operandOf?_eq_column.1 (conditionOf?_eq_some.1 hq).1
    exact ⟨v, hg.column_of_leftover hv⟩

end Run
end Compile
end TripleSql
