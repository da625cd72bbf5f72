/-
# Chosen rows under the aliases of their tables

The rows of a cross product are the choices of one stored row for each placed triple pattern, side by side
(`crossRows_table`). Such a joined row shows in the columns of a placement what was chosen for it, and so do all rows
that extend it (`Shows`). Whether a choice fits can be read off there (`fits_iff`): constants stand in their columns,
and all columns of a variable have its value.
-/

import TripleSql.Proofs.Matches
import TripleSql.Proofs.Placements

namespace TripleSql
namespace Compile

open Pattern Sql

/-- Placements, each with the stored row that is chosen for it. -/
abbrev Chosen := List (Placement × String × String)

/-- A stored row under the alias of a placement. -/
def Placement.row (cat : Catalog) (p : Placement) (row : String × String) : Row := fun c =>
  if c.tableAlias = p.aliasName then cat.record row c.name else none

/-- All choices of one stored row for each placement. -/
def chosenRows (data : Contents) (ps : List Placement) : Multiset Chosen :=
  selections (ps.map fun p => (data p.table.name).map (p, ·))

namespace Chosen

/-- The choice for the triple patterns. -/
def choice (ch : Chosen) : Choice := ch.map fun r => (r.1.triple, r.2)

/-- The chosen rows side by side. -/
def row (cat : Catalog) (ch : Chosen) : Row := Row.mergeAll (ch.map fun r => r.1.row cat r.2)

/-- The row has the chosen values in the columns of the placements. -/
def Shows (e : Row) (ch : Chosen) : Prop := ∀ r ∈ ch, e r.1.subject = some r.2.1 ∧ e r.1.object = some r.2.2

end Chosen

section Choices

variable {cat : Catalog} {data : Contents} {ps : List Placement} {ch : Chosen}

theorem map_fst_of_mem_chosenRows (h : ch ∈ chosenRows data ps) : ch.map Prod.fst = ps := by
  rw [chosenRows, mem_selections, List.forall₂_map_right_iff] at h
  induction h with
  | nil => rfl
  | cons hr _ ih =>
    obtain ⟨row, -, rfl⟩ := Multiset.mem_map.1 hr
    rw [List.map_cons, ih]

/-- The rows of tables are the chosen rows. -/
theorem crossRows_table (cat : Catalog) (data : Contents) (ps : List Placement) :
    crossRows (cat.store data) (ps.map Placement.table) = (chosenRows data ps).map (Chosen.row cat) := by
  have hrow : ∀ p : Placement, p.table.rows (cat.store data) =
      ((data p.table.name).map (p, ·)).map fun r => r.1.row cat r.2 := fun p => by
    rw [Table.rows, Catalog.store, Multiset.map_map, Multiset.map_map]
    rfl
  have htables : (ps.map Placement.table).map (Table.rows (cat.store data)) =
      (ps.map fun p => (data p.table.name).map (p, ·)).map (Multiset.map fun r => r.1.row cat r.2) := by
    rw [List.map_map, List.map_map]
    exact List.map_congr_left fun p _ => hrow p
  rw [crossRows, htables, selections_map, Multiset.map_map]
  rfl

/-- The choices for triple patterns are those for their placements. -/
theorem choices_triple (hof : ∀ p ∈ ps, p.Of cat) :
    cat.choices data (ps.map Placement.triple) = (chosenRows data ps).map Chosen.choice := by
  have hrows : (ps.map Placement.triple).map (fun t => (cat.rowsOf data t).map (t, ·)) =
      (ps.map fun p => (data p.table.name).map (p, ·)).map (Multiset.map fun r => (r.1.triple, r.2)) := by
    rw [List.map_map, List.map_map]
    refine List.map_congr_left fun p hp => ?_
    obtain ⟨predicate, hpred, hget⟩ := (hof p hp).table
    rw [Function.comp_apply, Function.comp_apply, Multiset.map_map, Catalog.rowsOf, Catalog.tableOf?, hpred]
    dsimp only
    rw [hget]
    rfl
  rw [Catalog.choices, hrows, selections_map]
  rfl

/-- The matches of placed triple patterns are the valuations of the chosen rows that fit. -/
theorem matchesOf_triple (ops : Operators) (σ : Valuation) (fs : List Filter) (hof : ∀ p ∈ ps, p.Of cat) :
    matchesOf cat ops data σ (ps.map Placement.triple) fs =
      ((chosenRows data ps).filter fun ch => Choice.Fits ops σ fs ch.choice).map fun ch => ch.choice.valuation := by
  rw [matchesOf, choices_triple hof, Multiset.filter_map, Multiset.map_map]
  rfl

/-- A row of the table of a placement has both values in its columns. -/
theorem Placement.Of.row_eq {p : Placement} (h : p.Of cat) (hne : cat.subjectColumn ≠ cat.objectColumn)
    (row : String × String) : p.row cat row p.subject = some row.1 ∧ p.row cat row p.object = some row.2 := by
  rw [h.subject, h.object, Placement.row, Placement.row, if_pos rfl, if_pos rfl, Catalog.record, Catalog.record,
    if_pos rfl, if_neg hne.symm, if_pos rfl]
  exact ⟨rfl, rfl⟩

/-- **Side by side, each chosen row stands where it was chosen.** -/
theorem Chosen.shows_row (hne : cat.subjectColumn ≠ cat.objectColumn) (hof : ∀ r ∈ ch, r.1.Of cat)
    (hn : (ch.map fun r => r.1.aliasName).Nodup) : Shows (ch.row cat) ch := by
  induction ch with
  | nil => exact nofun
  | cons s ch ih =>
    rw [List.map_cons, List.nodup_cons] at hn
    have hs := hof s (List.mem_cons_self ..)
    have hrest := ih (fun r hr => hof r (List.mem_cons_of_mem _ hr)) hn.2
    have hmerge : Chosen.row cat (s :: ch) = (s.1.row cat s.2).merge (Chosen.row cat ch) := rfl
    intro r hr
    rcases List.mem_cons.1 hr with rfl | hr
    · obtain ⟨hsub, hobj⟩ := hs.row_eq hne r.2
      rw [hmerge, Row.merge, Row.merge, hsub, hobj]
      exact ⟨rfl, rfl⟩
    · have hother : ∀ c : Column, c.tableAlias = r.1.aliasName → s.1.row cat s.2 c = none := fun c hc =>
        if_neg fun hcs => hn.1 (List.mem_map.2 ⟨r, hr, hc.symm.trans hcs⟩)
      have hr' := hof r (List.mem_cons_of_mem _ hr)
      rw [hmerge, Row.merge, Row.merge, hother _ (congrArg Column.tableAlias hr'.subject),
        hother _ (congrArg Column.tableAlias hr'.object)]
      exact hrest r hr

end Choices

/-- The columns of placements tell the variables among their slots. -/
theorem lookup_columns (ss : List (Node × Column)) (v : String) :
    (ss.filterMap fun s => s.1.var?.map (·, s.2)).lookup v = ss.lookup (.var v) := by
  induction ss with
  | nil => rfl
  | cons s ss ih =>
    obtain ⟨n, c⟩ := s
    cases n with
    | const x =>
      have hbeq : (Node.var v == Node.const x) = false := beq_eq_false_iff_ne.2 nofun
      rw [List.filterMap_cons_none rfl, ih, List.lookup_cons, hbeq]
    | var w =>
      have hbeq : (v == w) = (Node.var v == Node.var w) := by
        rw [Bool.eq_iff_iff, beq_iff_eq, beq_iff_eq, Node.var.injEq]
      change ((w, c) :: ss.filterMap _).lookup v = _
      rw [List.lookup_cons, List.lookup_cons, ih, hbeq]

namespace Chosen.Shows

variable {ch : Chosen} {ps : List Placement} {e : Row} {n : Node} {v a : String} {c : Column}

/-- **The places of a choice are the slots of the placements,** with what stands in their columns. -/
theorem places_eq (h : Shows e ch) (hps : ch.map Prod.fst = ps) :
    ch.choice.places.map (fun a => (a.1, some a.2)) = (ps.flatMap Placement.slots).map fun s => (s.1, e s.2) := by
  subst hps
  induction ch with
  | nil => rfl
  | cons r ch ih =>
    obtain ⟨hs, ho⟩ := h r (List.mem_cons_self ..)
    have hrest := ih fun r hr => h r (List.mem_cons_of_mem _ hr)
    have hplaces : Choice.places (choice (r :: ch)) =
        [(r.1.triple.subject, r.2.1), (r.1.triple.object, r.2.2)] ++ Choice.places (choice ch) := rfl
    have hslots : ((r :: ch).map Prod.fst).flatMap Placement.slots =
        [(r.1.triple.subject, r.1.subject), (r.1.triple.object, r.1.object)] ++
          (ch.map Prod.fst).flatMap Placement.slots := rfl
    rw [hplaces, hslots, List.map_append, List.map_append, hrest]
    simp only [List.map_cons, List.map_nil, hs, ho]

theorem mem_places (h : Shows e ch) (hps : ch.map Prod.fst = ps) :
    (n, a) ∈ ch.choice.places ↔ ∃ c, (n, c) ∈ ps.flatMap Placement.slots ∧ e c = some a := by
  have hmap : (n, a) ∈ ch.choice.places ↔ (n, some a) ∈ ch.choice.places.map fun a => (a.1, some a.2) := by
    simp
  rw [hmap, h.places_eq hps, List.mem_map]
  simp only [Prod.mk.injEq, Prod.exists]
  exact ⟨fun ⟨_, c, hc, rfl, ha⟩ => ⟨c, hc, ha⟩, fun ⟨c, hc, ha⟩ => ⟨n, c, hc, rfl, ha⟩⟩

/-- Every column of a placement has a value. -/
theorem exists_value (h : Shows e ch) (hps : ch.map Prod.fst = ps) (hc : (n, c) ∈ ps.flatMap Placement.slots) :
    ∃ a, e c = some a := by
  have hm : (n, e c) ∈ ch.choice.places.map fun a => (a.1, some a.2) := by
    rw [h.places_eq hps]
    exact List.mem_map.2 ⟨(n, c), hc, rfl⟩
  obtain ⟨a, -, ha⟩ := List.mem_map.1 hm
  exact ⟨a.2, (congrArg Prod.snd ha).symm⟩

/-- **The value of a variable is what stands in its first column.** -/
theorem valuation_eq (h : Shows e ch) (hps : ch.map Prod.fst = ps) (v : String) :
    ch.choice.valuation v = ((ps.flatMap Placement.columns).lookup v).bind e := by
  have hcolumns : (ps.flatMap Placement.columns).lookup v = (ps.flatMap Placement.slots).lookup (.var v) := by
    rw [← lookup_columns, List.filterMap_flatMap]
    rfl
  have hlookup : (ch.choice.places.lookup (.var v)).map some = ((ps.flatMap Placement.slots).lookup (.var v)).map e := by
    rw [← lookup_map_snd, h.places_eq hps, lookup_map_snd]
  rw [hcolumns, Choice.valuation]
  cases hs : (ps.flatMap Placement.slots).lookup (.var v) with
  | none =>
    rw [hs] at hlookup
    exact Option.map_eq_none_iff.1 hlookup
  | some c =>
    rw [hs] at hlookup
    obtain ⟨a, ha, hac⟩ := Option.map_eq_some_iff.1 hlookup
    rw [ha]
    exact hac

/-- **A choice fits if its columns read so:** a constant has itself in its column, a variable has one value in all of its
columns, the known one if there is one, and the filters hold of these values. -/
theorem fits_iff (h : Shows e ch) (hps : ch.map Prod.fst = ps) {ops : Operators} {σ : Valuation} {fs : List Filter} :
    Choice.Fits ops σ fs ch.choice ↔
      (∀ a c, (Node.const a, c) ∈ ps.flatMap Placement.slots → e c = some a) ∧
      (∀ v c, (v, c) ∈ ps.flatMap Placement.columns → e c = (σ.extend ch.choice.valuation) v) ∧
      ∀ f ∈ fs, f.holds ops (σ.extend ch.choice.valuation) = true := by
  have mem_columns : ∀ {v c}, (v, c) ∈ ps.flatMap Placement.columns ↔ (Node.var v, c) ∈ ps.flatMap Placement.slots := by
    intro v c
    simp only [List.mem_flatMap, Placement.mem_columns]
  constructor
  · intro hf
    refine ⟨fun a c hc => ?_, fun v c hc => ?_, hf.filters⟩
    · obtain ⟨b, hb⟩ := h.exists_value hps hc
      exact hb.trans (congrArg some (hf.known _ ((h.mem_places hps).2 ⟨c, hc, hb⟩) a rfl))
    · obtain ⟨b, hb⟩ := h.exists_value hps (mem_columns.1 hc)
      have hplace := (h.mem_places hps).2 ⟨c, mem_columns.1 hc, hb⟩
      rw [hb, Valuation.extend]
      cases hσ : σ v with
      | none => exact ((Choice.valuation_eq_some hf.agree).2 hplace).symm
      | some x => exact congrArg some (hf.known _ hplace x hσ)
  · rintro ⟨hconst, hcol, hfilters⟩
    -- Whatever a node is, its value under the valuation is what stands in its column.
    have hvalue : ∀ {n b}, (n, b) ∈ ch.choice.places → n.value? (σ.extend ch.choice.valuation) = some b := by
      intro n b hn
      obtain ⟨c, hc, hb⟩ := (h.mem_places hps).1 hn
      cases n with
      | var v => exact (hcol v c (mem_columns.2 hc)).symm.trans hb
      | const x => exact (hconst x c hc).symm.trans hb
    refine ⟨fun a ha b hb hab => ?_, fun a ha x hx => ?_, hfilters⟩
    · have hva := hvalue ha
      rw [hab, hvalue hb] at hva
      exact (Option.some.inj hva).symm
    · have hva := hvalue ha
      obtain ⟨n, b⟩ := a
      cases n with
      | const y => exact (Option.some.inj hva).symm.trans (Option.some.inj hx)
      | var v =>
        have hσ : (σ.extend ch.choice.valuation) v = some x := by
          rw [Valuation.extend, show σ v = some x from hx, Option.some_or]
        exact Option.some.inj (hva.symm.trans hσ)

end Chosen.Shows

end Compile
end TripleSql
