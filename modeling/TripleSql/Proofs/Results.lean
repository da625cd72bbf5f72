/-
# The rows of a statement are the results of its query

Over an admitted catalog, and where no triple pattern repeats a variable, a statement evaluates to what its query asks
for.

* Without optional elements it has one row for each choice of stored rows that fits, made of the values of the targets
  (`Session.build_rows_required`).
* With optional elements, every row that the required elements alone give is part of one row for each selection of
  matches of the optional elements, none of which sees another (`Session.build_rows`).
-/

import TripleSql.Proofs.JoinedRows
import TripleSql.Proofs.Satisfaction

namespace TripleSql
namespace Compile

open Pattern Sql

/-- The columns of members are those of their placements, in order. -/
theorem columnsOf_eq (ms : List Member) : columnsOf ms = (placementsOf ms).flatMap Placement.columns := by
  rw [columnsOf, placementsOf, List.flatMap_assoc]
  rfl

/-- All placements of members stand on the tables of their predicates. -/
theorem MembersOf.placementsOf {cat : Catalog} {es : List Element} {ms : List Member} (h : MembersOf cat es ms) :
    ∀ p ∈ Compile.placementsOf ms, p.Of cat := fun p hp => by
  obtain ⟨m, hm, hpm⟩ := mem_placementsOf.1 hp
  exact h.placed hm p hpm

/-- The triple patterns of elements are those of the placements of their members. -/
theorem MembersOf.triples_perm {cat : Catalog} {es : List Element} {ms : List Member} (h : MembersOf cat es ms) :
    ((Compile.placementsOf ms).map Placement.triple).Perm (es.flatMap Element.triples) := by
  induction h with
  | nil => exact .refl _
  | cons he _ ih =>
    obtain ⟨gp, rfl, hof⟩ := he
    rw [Compile.placementsOf, List.flatMap_cons, List.map_append, List.flatMap_cons]
    exact hof.triples_perm.append ih

/-- The values that a row gives to variables, each standing for a column of the list. -/
def valuesIn (columns : List (String × Column)) (e : Row) : Valuation := fun v => (columns.lookup v).bind e

namespace Compilation

variable {cat : Catalog} {q : Query} {targets : List String} {ordering : Option (String × Direction)}
  {st : Statement} {req opt : List Member} {m : Member} {v : String} {c : Column} {ops : Operators}
  {data : Contents} {e : Row} {ch : Chosen}

/-- The constants of placements are those of the pieces that have them. -/
theorem forall_constants_iff {ms : List Member} {P : String → Column → Prop} :
    (∀ a c, (Node.const a, c) ∈ (placementsOf ms).flatMap Placement.slots → P a c) ↔
      ∀ m ∈ ms, ∀ {c a}, m.piece.Constant c a → P a c := by
  constructor
  · rintro h m hm c a ⟨p, hp, hs⟩
    exact h a c (List.mem_flatMap.2 ⟨p, mem_placementsOf.2 ⟨m, hm, hp⟩, hs⟩)
  · intro h a c hc
    obtain ⟨p, hp, hs⟩ := List.mem_flatMap.1 hc
    obtain ⟨m, hm, hpm⟩ := mem_placementsOf.1 hp
    exact h m hm ⟨p, hpm, hs⟩

/-- **Members are satisfied by a row if the choice that it shows fits.** -/
theorem forall_satisfied_iff {es : List Element} {ms : List Member} (h : MembersOf cat es ms)
    (hps : ch.map Prod.fst = placementsOf ms) (he : ch.Shows e) {σ : Valuation} :
    (∀ m ∈ ms, m.piece.Satisfied ops e (σ.extend ch.choice.valuation)) ↔
      Choice.Fits ops σ (es.flatMap Element.filters) ch.choice := by
  rw [he.fits_iff hps, forall_constants_iff, h.forall_filters_iff, ← columnsOf_eq]
  constructor
  · intro hs
    refine ⟨fun m hm => (hs m hm).constants, fun v c hc => ?_, fun m hm => (hs m hm).filters⟩
    obtain ⟨m, hm, hmc⟩ := List.mem_flatMap.1 hc
    exact (hs m hm).columns hmc
  · rintro ⟨hconst, hcol, hfilters⟩ m hm
    exact ⟨hconst m hm, fun hc => hcol _ _ (List.mem_flatMap.2 ⟨m, hm, hc⟩), hfilters m hm⟩

/-- In a row that shows a choice for members their columns have values. -/
theorem exists_value {ms : List Member} (hps : ch.map Prod.fst = placementsOf ms) (he : ch.Shows e)
    (hc : (v, c) ∈ columnsOf ms) : ∃ a, e c = some a := by
  rw [columnsOf_eq, List.mem_flatMap] at hc
  obtain ⟨p, hp, hc⟩ := hc
  exact he.exists_value hps (List.mem_flatMap.2 ⟨p, hp, Placement.mem_columns.1 hc⟩)

/-- **A choice of stored rows gives each variable the value that its columns have in the joined row.** -/
theorem valuation_eq {ms : List Member} (hps : ch.map Prod.fst = placementsOf ms) (he : ch.Shows e) :
    ch.choice.valuation = valuesIn (columnsOf ms) e := by
  funext v
  rw [he.valuation_eq hps, ← columnsOf_eq]
  rfl

/-- The conditions that the required elements are joined on, and those of `WHERE`. -/
def requiredConditions (req : List Member) (st : Statement) : List Condition :=
  req.flatMap (·.part.conditions) ++ st.conditions

/-- Whatever is asked of the required tables is grounded in a piece of a required element. -/
theorem exists_grounds_required (h : Compilation cat q targets ordering st req opt) :
    ∀ d ∈ requiredConditions req st, ∃ m ∈ req, m.piece.Grounds d := by
  intro d hd
  rcases List.mem_append.1 hd with hd | hd
  · obtain ⟨m, hm, hd⟩ := List.mem_flatMap.1 hd
    obtain ⟨gp, -, hof⟩ := h.required.exists_of_mem hm
    exact ⟨m, hm, hof.grounds d hd⟩
  · exact h.grounds d hd

/-- **The required part.** All of its conditions hold of a row of its tables if the choice fits. -/
theorem required_iff (h : Compilation cat q targets ordering st req opt) (hq : q.LoopFree)
    (hps : ch.map Prod.fst = placementsOf req) (he : ch.Shows e) :
    Condition.AllHold ops (requiredConditions req st) e ↔
      Choice.Fits ops .empty (q.required.flatMap Element.filters) ch.choice := by
  rw [← forall_satisfied_iff h.required hps he]
  have hσ : (Valuation.empty).extend ch.choice.valuation = valuesIn (columnsOf req) e := by
    rw [← valuation_eq hps he]
    rfl
  have hbindings : ∀ m ∈ req, ∀ {v c}, m.piece.bindings.column? v = some c → e c = valuesIn (columnsOf req) e v := by
    intro m hm v c hc
    rw [valuesIn, h.lookup_of_bindings hm hc]
    rfl
  rw [hσ]
  constructor
  · intro hall m hm
    refine (h.requiredEnforced m hm).satisfied (h.not_loose hq (List.mem_append_left _ hm)) (hbindings m hm) ?_
    intro d hd
    refine hall d ((List.mem_append.1 hd).elim (fun hd => ?_) fun hd => List.mem_append_right _ hd)
    exact List.mem_append_left _ (List.mem_flatMap.2 ⟨m, hm, hd⟩)
  · intro hsat d hd
    obtain ⟨m, hm, hg⟩ := h.exists_grounds_required d hd
    refine (hsat m hm).holds (fun hb => hbindings m hm (Bindings.column?_bindAll_of_column? hb _)) (fun hc => ?_) hg
    rcases hc.base_or_mem with hb | hmem
    · have hlookup := h.lookup_of_bindings hm (Bindings.column?_bindAll_of_column? hb _)
      exact exists_value hps he (mem_of_lookup hlookup)
    · exact exists_value hps he (List.mem_flatMap.2 ⟨m, hm, hmem⟩)

/-- No two placements of required elements have one alias. -/
theorem nodup_required (h : Compilation cat q targets ordering st req opt) :
    ((placementsOf req).map Placement.aliasName).Nodup := by
  rw [map_aliasName_placementsOf]
  exact (List.nodup_append.1 (aliasesOf_append req opt ▸ h.nodup)).1

/-- Chosen rows show what was chosen, if their tables have different aliases. -/
theorem shows_of_mem_chosenRows {ps : List Placement} (hcat : cat.check = .ok ()) (hof : ∀ p ∈ ps, p.Of cat)
    (hn : (ps.map Placement.aliasName).Nodup) (hch : ch ∈ chosenRows data ps) : ch.Shows (ch.row cat) := by
  have hps := map_fst_of_mem_chosenRows hch
  refine Chosen.shows_row (subjectColumn_ne_objectColumn hcat) (fun r hr => ?_) ?_
  · exact hof _ (hps ▸ List.mem_map_of_mem hr)
  · rw [← hps, List.map_map] at hn
    exact hn

/-- The rows of the tables of required elements that satisfy all conditions on them. -/
def requiredRows (cat : Catalog) (ops : Operators) (data : Contents) (req : List Member) (st : Statement) :
    Multiset Row :=
  (crossRows (cat.store data) ((placementsOf req).map Placement.table)).filter
    (Condition.AllHold ops (requiredConditions req st))

/-- **The values in the required rows are the solutions of the required elements.** -/
theorem map_requiredRows (h : Compilation cat q targets ordering st req opt) (hcat : cat.check = .ok ())
    (hq : q.LoopFree) : (requiredRows cat ops data req st).map (valuesIn (columnsOf req)) =
      solutions cat ops data q.required := by
  have hshows : ∀ ch ∈ chosenRows data (placementsOf req), ch.Shows (ch.row cat) := fun ch hch =>
    shows_of_mem_chosenRows hcat h.required.placementsOf h.nodup_required hch
  rw [solutions, ← matchesOf_perm cat ops data h.required.triples_perm,
    matchesOf_triple ops _ _ h.required.placementsOf, requiredRows, crossRows_table, Multiset.filter_map,
    Multiset.map_map]
  have hiff : ∀ ch ∈ chosenRows data (placementsOf req), Condition.AllHold ops (requiredConditions req st) (ch.row cat) ↔
      Choice.Fits ops .empty (q.required.flatMap Element.filters) ch.choice := fun ch hch =>
    h.required_iff hq (map_fst_of_mem_chosenRows hch) (hshows ch hch)
  refine (congrArg _ (Multiset.filter_congr hiff)).trans (Multiset.map_congr rfl fun ch hch => ?_)
  have hch := (Multiset.mem_filter.1 hch).1
  exact (valuation_eq (map_fst_of_mem_chosenRows hch) (hshows ch hch)).symm

/-- Nothing but required tables stands in the row, and every required column of a variable has a value. -/
structure IsRequired (req : List Member) (r : Row) : Prop where
  within : r.Within (aliasesOf req)
  exists_value : ∀ {v c}, (v, c) ∈ columnsOf req → ∃ a, r c = some a

/-- A row of the required elements says nothing of other tables, and has a value in each column of a variable. -/
theorem isRequired_of_mem (h : Compilation cat q targets ordering st req opt) (hcat : cat.check = .ok ()) {r : Row}
    (hr : r ∈ requiredRows cat ops data req st) : IsRequired req r := by
  have hr := (Multiset.mem_filter.1 hr).1
  refine ⟨?_, fun hc => ?_⟩
  · rw [← map_aliasName_placementsOf]
    have := within_of_mem_crossRows hr
    rwa [List.map_map] at this
  · rw [crossRows_table] at hr
    obtain ⟨ch, hch, rfl⟩ := Multiset.mem_map.1 hr
    exact exists_value (map_fst_of_mem_chosenRows hch)
      (shows_of_mem_chosenRows hcat h.required.placementsOf h.nodup_required hch) hc

section Optional

variable {r f : Row} {gp : GraphPattern}

/-- The tables of an optional element are no required ones. -/
theorem not_mem_aliasesOf_required (h : Compilation cat q targets ordering st req opt) (hm : m ∈ opt)
    {p : Placement} (hp : p ∈ m.piece.placements) : p.aliasName ∉ aliasesOf req := fun ha => by
  have hn := h.nodup
  rw [aliasesOf_append] at hn
  exact List.disjoint_of_nodup_append hn ha (List.mem_flatMap.2 ⟨m, hm, List.mem_map_of_mem hp⟩)

/-- **An optional element.** All of its conditions hold of a required row and a row of its own tables if the choice that
the latter shows fits the values of the former. -/
theorem optional_iff (h : Compilation cat q targets ordering st req opt) (hq : q.LoopFree) (hm : m ∈ opt)
    (hof : m.Of cat gp) (hr : IsRequired req r) (hps : ch.map Prod.fst = m.piece.placements) (hf : ch.Shows f) :
    Condition.AllHold ops m.part.conditions (r.merge f) ↔
      Choice.Fits ops (valuesIn (columnsOf req) r) gp.filters ch.choice := by
  have hone : MembersOf cat [.pattern gp] [m] := .cons ⟨gp, rfl, hof⟩ .nil
  have hps' : ch.map Prod.fst = placementsOf [m] := hps.trans (List.flatMap_singleton ..).symm
  have he : ch.Shows (r.merge f) := fun s hs => by
    have hp : s.1 ∈ m.piece.placements := hps ▸ List.mem_map_of_mem hs
    have hnot := h.not_mem_aliasesOf_required hm hp
    rw [Row.merge_right hr.within ((congrArg Column.tableAlias (hof.placed _ hp).subject) ▸ hnot),
      Row.merge_right hr.within ((congrArg Column.tableAlias (hof.placed _ hp).object) ▸ hnot)]
    exact hf s hs
  have hmem := List.mem_append_right req hm
  have hbase : ∀ v, m.piece.base.column? v = (columnsOf req).lookup v := fun v => by
    rw [h.optionalBases m hm, column?_bindAll_empty]
  have hrequired : ∀ {v c}, (columnsOf req).lookup v = some c → ∃ a, r c = some a := fun hv =>
    hr.exists_value (mem_of_lookup hv)
  -- A variable of the required elements has its value from `r`, any other one from the choice.
  have hbindings : ∀ {v c}, m.piece.bindings.column? v = some c →
      r.merge f c = ((valuesIn (columnsOf req) r).extend ch.choice.valuation) v := by
    intro v c hc
    rw [Piece.bindings, Bindings.column?_bindAll, hbase, Option.or_eq_some_iff] at hc
    rw [Valuation.extend, valuesIn]
    rcases hc with hc | ⟨hnone, hc⟩
    · obtain ⟨a, ha⟩ := hrequired hc
      rw [hc, Option.bind_some, ha, Option.some_or, Row.merge, ha, Option.some_or]
    · rw [hnone, Option.bind_none, Option.none_or, valuation_eq hps' he, valuesIn, columnsOf_singleton, hc]
      rfl
  have hfilters : gp.filters = [Element.pattern gp].flatMap Element.filters := (List.flatMap_singleton ..).symm
  rw [hfilters, ← forall_satisfied_iff hone hps' he, List.forall_mem_singleton]
  constructor
  · exact (h.optionalEnforced m hm).satisfied (h.not_loose hq hmem) hbindings
  · intro hsat d hd
    refine hsat.holds (fun hb => hbindings (Bindings.column?_bindAll_of_column? hb _)) (fun {v c} hc => ?_)
      (hof.grounds d hd)
    rcases hc.base_or_mem with hb | hmem
    · obtain ⟨a, ha⟩ := hrequired (hbase v ▸ hb)
      exact ⟨a, by rw [Row.merge, ha, Option.some_or]⟩
    · exact exists_value hps' he (columnsOf_singleton m ▸ hmem)

/-- **The answers of an optional part are those of its element** to the values of the required row. -/
theorem map_answers (h : Compilation cat q targets ordering st req opt) (hcat : cat.check = .ok ()) (hq : q.LoopFree)
    (hm : m ∈ opt) (hof : m.Of cat gp) (hr : IsRequired req r) :
    (m.part.answers ops (cat.store data) r).map (valuesIn m.piece.columns) =
      answers cat ops data (valuesIn (columnsOf req) r) (.pattern gp) := by
  have hshows : ∀ ch ∈ chosenRows data m.piece.placements, ch.Shows (ch.row cat) := fun ch hch =>
    shows_of_mem_chosenRows hcat hof.placed
      ((List.nodup_flatMap.1 h.nodup).1 m (List.mem_append_right req hm)) hch
  have hempty : valuesIn m.piece.columns Row.empty = Valuation.empty := by
    funext v
    exact Option.bind_fun_none ..
  rw [answers, Element.triples, Element.filters, ← matchesOf_perm cat ops data hof.triples_perm,
    matchesOf_triple ops _ _ hof.placed, Part.answers, map_padded, hempty, hof.tables, crossRows_table,
    Multiset.filter_map, Multiset.map_map]
  have hiff : ∀ ch ∈ chosenRows data m.piece.placements,
      Condition.AllHold ops m.part.conditions (r.merge (ch.row cat)) ↔
        Choice.Fits ops (valuesIn (columnsOf req) r) gp.filters ch.choice := fun ch hch =>
    h.optional_iff hq hm hof hr (map_fst_of_mem_chosenRows hch) (hshows ch hch)
  refine congrArg _ ((congrArg _ (Multiset.filter_congr hiff)).trans (Multiset.map_congr rfl fun ch hch => ?_))
  have hch := (Multiset.mem_filter.1 hch).1
  have hps : ch.map Prod.fst = placementsOf [m] :=
    (map_fst_of_mem_chosenRows hch).trans (List.flatMap_singleton ..).symm
  rw [valuation_eq hps (hshows ch hch), columnsOf_singleton]
  rfl

end Optional

/-- The tables of members are those of their placements. -/
theorem flatMap_tables {es : List Element} {ms : List Member} (h : MembersOf cat es ms) :
    (ms.map Member.part).flatMap (·.tree.tables) = (placementsOf ms).map Placement.table := by
  rw [List.flatMap_map, placementsOf, List.map_flatMap]
  refine List.flatMap_congr fun m hm => ?_
  obtain ⟨gp, -, hof⟩ := h.exists_of_mem hm
  exact hof.tables

/-- The part of an optional element is left-outer-joined on required tables and its own. -/
theorem isOptional (h : Compilation cat q targets ordering st req opt) (hm : m ∈ opt) :
    m.part.IsOptional (aliasesOf req) := by
  obtain ⟨gp, -, hof⟩ := h.optional.exists_of_mem hm
  refine ⟨h.optionalKinds m hm, hof.chain.isInner, hof.wellScoped, fun d hd => ?_⟩
  rw [hof.part_aliases]
  exact h.aliases_subset (List.mem_append_right _ hm) (hof.grounds d (List.mem_append_right _ hd))

/-- **The joined rows of a statement:** every required row with a selection of answers of the optional parts. -/
theorem joined_eq (h : Compilation cat q targets ordering st req opt) :
    st.joined ops (cat.store data) = (requiredRows cat ops data req st).bind fun r =>
      (selections (opt.map fun m => m.part.answers ops (cat.store data) r)).map fun fs => r.merge (Row.mergeAll fs) := by
  obtain ⟨core, hinner, hscoped, hparts, htables⟩ := h.tree
  have haliases : core.aliases = aliasesOf req := by
    rw [JoinTree.aliases_parts, hparts, h.required.flatMap_part_aliases]
  have hconditions : core.conditions = req.flatMap (·.part.conditions) := by
    rw [JoinTree.conditions_parts, hparts, List.flatMap_map]
  have hcore : core.tables = (placementsOf req).map Placement.table := by
    rw [JoinTree.tables_parts, hparts, flatMap_tables h.required]
  have hnodup : (core.aliases ++ (opt.map Member.part).flatMap Part.aliases).Nodup := by
    rw [haliases, h.optional.flatMap_part_aliases, ← aliasesOf_append]
    exact h.nodup
  rw [Statement.joined_eq htables hinner hscoped ?_ hnodup ?_, hconditions, hcore]
  · simp only [List.map_map]
    rfl
  · rw [haliases]
    exact List.forall_mem_map.2 fun m hm => h.isOptional hm
  · rw [haliases]
    exact h.conditions_aliases_subset

/-- **What stands in the column of a variable** beside the required row is what the first optional element has there
that has the variable. -/
theorem mergeAll_of_lookup {es : List Element} {ms : List Member} {fs : List Row} (h : MembersOf cat es ms)
    (hn : (aliasesOf ms).Nodup) (hfs : List.Forall₂ (fun f m => f.Within m.piece.aliases) fs ms)
    (hc : (columnsOf ms).lookup v = some c) :
    Row.mergeAll fs c =
      ((es.zip (List.zipWith (fun m => valuesIn m.piece.columns) ms fs)).find? fun e => v ∈ e.1.vars).bind
        fun e => e.2 v := by
  induction h generalizing fs with
  | nil => cases hc
  | @cons e m es ms he hrest ih =>
    obtain ⟨gp, rfl, hof⟩ := he
    obtain _ | ⟨hf, hfs⟩ := hfs
    next f fs =>
    have hcolumns : columnsOf (m :: ms) = m.piece.columns ++ columnsOf ms := rfl
    have hmerge : Row.mergeAll (f :: fs) = f.merge (Row.mergeAll fs) := rfl
    -- Either the first element has the variable, and the other rows are empty there, or it is looked for among these.
    have hdisjoint : m.piece.aliases.Disjoint (aliasesOf ms) := List.disjoint_of_nodup_append hn
    rw [hcolumns, List.lookup_append] at hc
    rw [List.zipWith_cons_cons, List.zip_cons_cons, hmerge]
    cases hl : m.piece.columns.lookup v with
    | some d =>
      rw [hl, Option.some_or] at hc
      obtain rfl := Option.some.inj hc
      have hmem := mem_of_lookup hl
      have hown := Piece.tableAlias_mem hof.placed hmem
      have hvalue : valuesIn m.piece.columns f v = f d := congrArg (Option.bind · f) hl
      rw [List.find?_cons_of_pos (by simpa using hof.mem_vars.2 ⟨d, hmem⟩), Option.bind_some,
        Row.merge_left (Row.within_mergeAll hfs) fun ha => hdisjoint hown ha]
      exact hvalue.symm
    | none =>
      rw [hl, Option.none_or] at hc
      have hother := MembersOf.tableAlias_mem hrest (mem_of_lookup hc)
      have hnot : v ∉ (Element.pattern gp).vars := fun hv => by
        obtain ⟨d, hd⟩ := hof.mem_vars.1 hv
        exact not_mem_of_lookup hl d hd
      rw [List.find?_cons_of_neg (by simpa using hnot), Row.merge_right hf fun ha => hdisjoint ha hother]
      exact ih (List.nodup_append.1 hn).2.1 hfs hc

/-- **The column of a target holds its value.** -/
theorem merge_of_lookup (h : Compilation cat q targets ordering st req opt) {r : Row} (hr : IsRequired req r)
    {fs : List Row} (hfs : List.Forall₂ (fun f m => f.Within m.piece.aliases) fs opt)
    (hc : (columnsOf (req ++ opt)).lookup v = some c) :
    r.merge (Row.mergeAll fs) c = targetValue q (valuesIn (columnsOf req) r)
      (List.zipWith (fun m => valuesIn m.piece.columns) opt fs) v := by
  rw [columnsOf_append, List.lookup_append] at hc
  rw [targetValue]
  cases hl : (columnsOf req).lookup v with
  | some d =>
    rw [hl, Option.some_or] at hc
    obtain rfl := Option.some.inj hc
    have hmem := mem_of_lookup hl
    obtain ⟨a, ha⟩ := hr.exists_value hmem
    rw [if_pos (h.required.mem_vars.2 ⟨d, hmem⟩), valuesIn, hl, Option.bind_some, Row.merge, ha, Option.some_or]
  | none =>
    rw [hl, Option.none_or] at hc
    have hother := h.optional.tableAlias_mem (mem_of_lookup hc)
    have hnot : v ∉ q.required.flatMap Element.vars := fun hv => by
      obtain ⟨d, hd⟩ := h.required.mem_vars.1 hv
      exact not_mem_of_lookup hl d hd
    have hn := aliasesOf_append req opt ▸ h.nodup
    rw [if_neg hnot, Row.merge_right hr.within fun ha => List.disjoint_of_nodup_append hn ha hother]
    exact mergeAll_of_lookup h.optional (List.nodup_append.1 hn).2.1 hfs hc

/-- The selected columns hold the values of the targets. -/
theorem map_select (h : Compilation cat q targets ordering st req opt) {f : Row} {g : String → Option String}
    (hf : ∀ v c, (columnsOf (req ++ opt)).lookup v = some c → f c = g v) : st.select.map f = targets.map g := by
  exact (map_eq_map_of_forall₂ (h.select.imp fun v c hc => (hf v c hc).symm)).symm

/-- The answers of all optional parts, each read by the columns of its member. -/
theorem map_selections_answers (h : Compilation cat q targets ordering st req opt) (hcat : cat.check = .ok ())
    (hq : q.LoopFree) {r : Row} (hr : IsRequired req r) :
    (selections (opt.map fun m => m.part.answers ops (cat.store data) r)).map
        (List.zipWith (fun m => valuesIn m.piece.columns) opt) =
      selections (q.optional.map (answers cat ops data (valuesIn (columnsOf req) r))) := by
  rw [← selections_map_map]
  refine congrArg selections (map_eq_map_of_forall₂ ((forall₂_and_mem h.optional).imp ?_)).symm
  rintro e m ⟨⟨gp, rfl, hof⟩, hm⟩
  exact (h.map_answers hcat hq hm hof hr).symm

/-- **The rows of a statement are the results of its query.** -/
theorem rows_eq (h : Compilation cat q targets ordering st req opt) (hcat : cat.check = .ok ()) (hq : q.LoopFree) :
    st.rows ops (cat.store data) =
      (solutions cat ops data q.required).bind (resultsWith cat ops data q targets) := by
  rw [← h.map_requiredRows hcat hq, Multiset.bind_map, Statement.rows, h.joined_eq, Multiset.map_bind]
  refine Multiset.bind_congr fun r hr => ?_
  have hr := h.isRequired_of_mem hcat hr
  rw [resultsWith, ← h.map_selections_answers hcat hq hr, Multiset.map_map, Multiset.map_map]
  refine Multiset.map_congr rfl fun fs hfs => h.map_select fun v c hc => h.merge_of_lookup hr ?_ hc
  rw [mem_selections, List.forall₂_map_right_iff] at hfs
  refine (forall₂_and_mem hfs).imp fun f m hf => ?_
  exact h.optional.part_aliases hf.2 ▸ Part.within_of_mem_answers hf.1

/-- A query without optional elements has no optional members. -/
theorem eq_nil_of_optional_eq_nil (h : Compilation cat q targets ordering st req opt) (hopt : q.optional = []) :
    opt = [] := List.forall₂_nil_left_iff.1 (hopt ▸ h.optional)

/-- Without optional elements the joined rows are the required ones. -/
theorem joined_of_optional_eq_nil (h : Compilation cat q targets ordering st req opt) (hopt : q.optional = []) :
    st.joined ops (cat.store data) = requiredRows cat ops data req st := by
  rw [h.joined_eq, h.eq_nil_of_optional_eq_nil hopt]
  simp only [List.map_nil, selections, Multiset.map_singleton, Row.mergeAll, List.foldr_nil, Row.merge_empty]
  exact (Multiset.bind_singleton _ id).trans (Multiset.map_id _)

end Compilation

/-- **A query without optional elements.** Over an admitted catalog, and where no triple pattern repeats a variable, the
statement has one row for each choice of one stored row for each triple pattern, from the table of its predicate,
that fits: the values of the targets. -/
theorem Session.build_rows_required {S : Session} {st : Statement} (hcat : S.catalog.check = .ok ())
    (hopt : S.query.optional = []) (hq : S.query.LoopFree) (h : S.build.1 = .ok st) (ops : Operators)
    (data : Contents) :
    st.rows ops (S.catalog.store data) =
      ((S.catalog.choices data (S.query.required.flatMap Element.triples)).filter
        (Choice.Fits ops .empty (S.query.required.flatMap Element.filters))).map
          fun ch => S.targets.map ch.valuation := by
  obtain ⟨-, s, hs⟩ := Session.build_eq_ok h
  obtain ⟨req, opt, hc⟩ := statement_eq_ok hs
  have hselect : ∀ r : Row, st.select.map r = S.targets.map (valuesIn (columnsOf req) r) := fun r =>
    hc.map_select fun v c hv => by
      rw [hc.eq_nil_of_optional_eq_nil hopt, List.append_nil] at hv
      rw [valuesIn, hv, Option.bind_some]
  calc st.rows ops (S.catalog.store data)
    _ = (Compilation.requiredRows S.catalog ops data req st).map fun r => st.select.map r := by
      rw [Statement.rows, hc.joined_of_optional_eq_nil hopt]
    _ = ((Compilation.requiredRows S.catalog ops data req st).map (valuesIn (columnsOf req))).map
        fun σ => S.targets.map σ := by
      rw [Multiset.map_map]
      exact Multiset.map_congr rfl fun r _ => hselect r
    _ = _ := by
      rw [hc.map_requiredRows hcat hq, solutions, matchesOf, Multiset.map_map]
      rfl

namespace Session

/-- No triple pattern of `friends` repeats a variable. -/
theorem friends_loopFree : friends.query.LoopFree := by
  have hne : ∀ e ∈ friends.query.required ++ friends.query.optional, ∀ t ∈ e.triples, t.subject ≠ t.object := by decide
  exact fun e he t ht v hs ho => hne e he t ht (hs.trans ho.symm)

/-- Some stored rows about friends. -/
def friendsData : Contents
  | "knows" => {("Ann", "Bob"), ("Abe", "Bob"), ("Cy", "Ada")}
  | "likes" => {("Bob", "tea"), ("Ann", "Cy"), ("Abe", "Cy")}
  | "age" => {("Ann", "30")}
  | _ => 0

/-- Every comparison but `=` asks for different texts. -/
def unequal : Operators := fun _ a b => a != b

/-- Friends without their age. -/
def couples : Session where
  catalog := friends.catalog
  query := { required := friends.query.required }
  targets := ["x", "y"]

/-- Ann and Abe, who know Bob, have rows; Cy, who knows Ada, has none. -/
theorem couples_rows : ∃ st, couples.build.1 = .ok st ∧
    st.rows unequal (couples.catalog.store friendsData) = {[some "Ann", some "Bob"], [some "Abe", some "Bob"]} := by
  obtain ⟨st, h⟩ : ∃ st, couples.build.1 = .ok st := exists_build (by decide +kernel)
  have hq : couples.query.LoopFree := fun e he => friends_loopFree e (List.mem_append_left _ (by simpa [couples] using he))
  refine ⟨st, h, ?_⟩
  rw [build_rows_required (by decide +kernel) rfl hq h]
  decide +kernel

end Session

/-- **The required elements alone compile** where the whole query does, whichever of their variables are targets. -/
theorem statement_required {cat : Catalog} {q : Query} {targets vs : List String}
    {ordering : Option (String × Direction)} {st : Statement} {s : Scope}
    (h : statement cat q targets ordering {} = .ok st s) (hvs : ∀ v ∈ vs, v ∈ q.required.flatMap Element.vars) :
    ∃ core s', statement cat { required := q.required } vs none {} = .ok core s' := by
  obtain ⟨core?, s₁, hrequire, h₁⟩ := Step.bind_eq_ok.1 h
  cases core? with
  | none => exact absurd h₁ Step.throw_ne_ok
  | some a =>
    obtain ⟨req, hreq⟩ := requireEach_eq_ok hrequire
    have hbound : ∀ v ∈ vs, ∃ c, targetColumn s₁.bindings v = .ok c := fun v hv => by
      obtain ⟨c, hc⟩ := hreq.members.mem_vars.1 (hvs v hv)
      have hsome : (s₁.bindings.column? v).isSome := by
        rw [hreq.bindings, ← Bindings.mem_vars, Bindings.mem_vars_bindAll]
        exact .inr ⟨c, hc⟩
      exact (Option.isSome_iff_exists.1 hsome).imp fun d hd => targetColumn_eq_ok.2 hd
    obtain ⟨select, hselect⟩ := exists_forall₂ hbound
    refine ⟨⟨select, a.tree, Condition.pushAll s₁.constants.conditions a.residual, none⟩, s₁, ?_⟩
    refine Step.bind_eq_ok.2 ⟨some a, s₁, hrequire, Step.bind_eq_ok.2 ⟨s₁, s₁, rfl, ?_⟩⟩
    refine Step.bind_eq_ok.2 ⟨(a, s₁.bindings), s₁, rfl, Step.bind_eq_ok.2 ⟨select, s₁, ?_, rfl⟩⟩
    exact Step.ofExcept_eq_ok.2 ⟨mapM_eq_ok_except.2 hselect, rfl⟩

/-- **A query with optional elements.** Over an admitted catalog, and where no triple pattern repeats a variable, take
each joined row of the statement of the required elements alone, with the values that it gives to their variables. For
every selection of an answer of each optional element to these values the whole statement has one row; a target has
the value of the required row if the required elements have the variable, and else that of the first optional element
that has it. -/
theorem Session.build_rows {S : Session} {st : Statement} (hcat : S.catalog.check = .ok ()) (hq : S.query.LoopFree)
    (h : S.build.1 = .ok st) :
    ∃ core s, statement S.catalog { required := S.query.required } (S.query.required.flatMap Element.vars) none {} =
        .ok core s ∧
      ∀ (ops : Operators) (data : Contents), st.rows ops (S.catalog.store data) =
        (core.joined ops (S.catalog.store data)).bind fun r =>
          resultsWith S.catalog ops data S.query S.targets
            (valuesIn ((S.query.required.flatMap Element.vars).zip core.select) r) := by
  obtain ⟨-, s, hs⟩ := Session.build_eq_ok h
  obtain ⟨req, opt, hc⟩ := statement_eq_ok hs
  obtain ⟨core, s', hcore⟩ := statement_required hs fun _ hv => hv
  obtain ⟨req', opt', hc'⟩ := statement_eq_ok hcore
  refine ⟨core, s', hcore, fun ops data => ?_⟩
  have hq' : Query.LoopFree { required := S.query.required } := fun e he =>
    hq e (List.mem_append_left _ (by simpa using he))
  have hvalues : ∀ r, valuesIn ((S.query.required.flatMap Element.vars).zip core.select) r =
      valuesIn (columnsOf req') r := fun r => by
    have hselect := hc'.select
    rw [hc'.eq_nil_of_optional_eq_nil rfl, List.append_nil] at hselect
    funext v
    refine congrArg (Option.bind · r) (lookup_zip hselect fun hne => ?_)
    obtain ⟨c, hv⟩ := Option.ne_none_iff_exists'.1 hne
    exact hc'.required.mem_vars.2 ⟨c, mem_of_lookup hv⟩
  calc st.rows ops (S.catalog.store data)
    _ = (solutions S.catalog ops data S.query.required).bind (resultsWith S.catalog ops data S.query S.targets) :=
      hc.rows_eq hcat hq
    _ = ((core.joined ops (S.catalog.store data)).map (valuesIn (columnsOf req'))).bind
        (resultsWith S.catalog ops data S.query S.targets) := by
      rw [hc'.joined_of_optional_eq_nil rfl, hc'.map_requiredRows hcat hq']
    _ = _ := by
      rw [Multiset.bind_map]
      exact Multiset.bind_congr fun r _ => congrArg _ (hvalues r).symm

/-- Each row of the required part of `friends` is part of one row for each match of the optional one. -/
theorem Session.friends_rows : ∃ st core s, friends.build.1 = .ok st ∧
    statement friends.catalog { required := friends.query.required } ["x", "y", "y", "z", "x", "z"] none {} =
        .ok core s ∧
      st.rows unequal (friends.catalog.store friendsData) =
        (core.joined unequal (friends.catalog.store friendsData)).bind fun r =>
          resultsWith friends.catalog unequal friendsData friends.query ["x", "a"]
            (valuesIn (["x", "y", "y", "z", "x", "z"].zip core.select) r) := by
  obtain ⟨st, h⟩ := exists_build_friends
  obtain ⟨core, s, hcore, hrows⟩ := build_rows (by decide +kernel) friends_loopFree h
  exact ⟨st, core, s, h, hcore, hrows unequal friendsData⟩

/-- Ann has an age, Abe has none. -/
example : Session.friends.build.1.toOption.map
    (·.rows Session.unequal (Session.friends.catalog.store Session.friendsData)) =
      some {[some "Ann", some "30"], [some "Abe", none]} := by decide +kernel

end Compile
end TripleSql
