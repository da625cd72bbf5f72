/-
# How a catalog is answered

A catalog is accepted exactly if its names are right (`NamedRight`) and every table tells its predicate (`TellsPredicates`).
An accepted one answers look-ups as it was written and lists its tables in ascending order of their predicates. If only
the last condition fails the answer is a shared table (`accept_outcome`). Which one that is, and between which two
predicates, does not depend on the order in which the entries were written:

| predicates and tables | answer |
| --- | --- |
| `a` in `t`, `b` in `u` | accepted |
| `a` in `t`, `b` in `u`, `c` in `u`, `d` in `t` | `u` is shared by `b` and `c` |
| `a` in `t`, `b` in `u`, `c` in `t`, `d` in `u` | `t` is shared by `a` and `c` |

The second predicate is the least one that has the table of a smaller one, and the first is that smaller one: among the
entries before the second no table occurs twice (`checkEntries_eq_sharedTable`), so there is no other.
-/

import TripleSql.Proofs.Admission
import TripleSql.Proofs.Lists

namespace TripleSql
namespace Catalog

/-- **The names of a catalog are right:** they are plain, the two columns are different, and each predicate has a
character that is no blank. -/
structure NamedRight (c : Catalog) : Prop where
  subjectColumn : Sql.isPlain c.subjectColumn = true
  objectColumn : Sql.isPlain c.objectColumn = true
  subjectColumn_ne : c.subjectColumn ≠ c.objectColumn
  mapTable : ∀ t, c.mapTable = some t → Sql.isPlain t = true
  soTable : ∀ t, c.soTable = some t → Sql.isPlain t = true
  visible : ∀ p t, c.predicates.get? p = some t → ∃ x ∈ p.toList, Text.isBlank x = false
  tables : ∀ p t, c.predicates.get? p = some t → Sql.isPlain t = true

/-- No two predicates have one table. -/
def TellsPredicates (c : Catalog) : Prop :=
  ∀ p q t, c.predicates.get? p = some t → c.predicates.get? q = some t → p = q

/-- The predicate has a table that a smaller predicate has. -/
def Repeats (c : Catalog) (p : String) : Prop :=
  ∃ q t, q < p ∧ c.predicates.get? q = some t ∧ c.predicates.get? p = some t

variable {c d : Catalog}

/-- A predicate is visible if one of its characters is no blank. -/
theorem isEmptyOrBlank_eq_false {p : String} :
    Text.isEmptyOrBlank p = false ↔ ∃ x ∈ p.toList, Text.isBlank x = false := by
  simp [Text.isEmptyOrBlank]

/-- Tables tell their predicates exactly if none is listed twice. -/
theorem tellsPredicates_iff : c.TellsPredicates ↔ c.predicates.tables.Nodup := by
  constructor
  · intro h
    have hkeys : c.predicates.entries.Nodup := List.Pairwise.imp (fun hlt he => by
      subst he
      exact String.lt_irrefl _ hlt) c.predicates.ascending
    refine hkeys.map_on fun e he f hf hef => ?_
    obtain ⟨p, t⟩ := e
    obtain ⟨q, u⟩ := f
    obtain rfl : t = u := hef
    rw [h p q t (Predicates.mem_entries_iff.1 he) (Predicates.mem_entries_iff.1 hf)]
  · intro h p q t hp hq
    have hentries := List.inj_on_of_nodup_map h (mem_of_lookup hp) (mem_of_lookup hq) rfl
    exact congrArg Prod.fst hentries

/-- What is said of every entry is said of every predicate and its table. -/
theorem forall_mem_entries {P : String → String → Prop} :
    (∀ e ∈ c.predicates.entries, P e.1 e.2) ↔ ∀ p t, c.predicates.get? p = some t → P p t :=
  ⟨fun h p t hp => h (p, t) (mem_of_lookup hp), fun h e he => h e.1 e.2 (Predicates.mem_entries_iff.1 he)⟩

/-- **A catalog is well formed** exactly if its names are right and its tables tell their predicates. -/
theorem isWellFormed_iff : c.IsWellFormed ↔ c.NamedRight ∧ c.TellsPredicates := by
  have hvisible := forall_mem_entries (c := c) (P := fun p _ => Text.isEmptyOrBlank p = false)
  have htables := forall_mem_entries (c := c) (P := fun _ t => Sql.isPlain t = true)
  simp only [isEmptyOrBlank_eq_false] at hvisible
  constructor
  · intro h
    exact ⟨⟨h.isPlain_subjectColumn, h.isPlain_objectColumn, h.subjectColumn_ne, h.isPlain_mapTable, h.isPlain_soTable,
      hvisible.1 fun e he => isEmptyOrBlank_eq_false.1 (h.visible e he),
      htables.1 fun e he => h.isPlain_tables _ (List.mem_map_of_mem he)⟩, tellsPredicates_iff.2 h.nodup_tables⟩
  · rintro ⟨h, htells⟩
    exact ⟨h.subjectColumn, h.objectColumn, h.subjectColumn_ne, h.mapTable, h.soTable,
      fun e he => isEmptyOrBlank_eq_false.2 (hvisible.2 h.visible e he),
      List.forall_mem_map.2 (htables.2 h.tables), tellsPredicates_iff.1 htells⟩

/-- Where the names are right, nothing but the tables of entries is left to check. -/
theorem NamedRight.check_eq (h : c.NamedRight) : c.check = checkEntries [] c.predicates.entries := by
  simp only [check, requirePlain_eq_ok.2 h.subjectColumn, requirePlain_eq_ok.2 h.objectColumn, if_neg h.subjectColumn_ne,
    requirePlain?_eq_ok.2 h.mapTable, requirePlain?_eq_ok.2 h.soTable]
  rfl

/-- **The first entry whose table was seen is reported,** with the entry that has it. Before that entry no table occurs
twice. -/
theorem checkEntries_eq_sharedTable {seen es : List (String × String)}
    (hok : ∀ e ∈ es, Text.isEmptyOrBlank e.1 = false ∧ Sql.isPlain e.2 = true) (hseen : (seen.map (·.2)).Nodup)
    (hdup : ¬ ((seen ++ es).map (·.2)).Nodup) :
    ∃ l r first second table, es = l ++ (second, table) :: r ∧
      checkEntries seen es = .error (.sharedTable table first second) ∧ (first, table) ∈ seen ++ l ∧
      ((seen ++ l).map (·.2)).Nodup := by
  induction es generalizing seen with
  | nil => exact absurd hseen (by simpa using hdup)
  | cons e es ih =>
    obtain ⟨⟨hvisible, hplain⟩, hes⟩ := List.forall_mem_cons.1 hok
    obtain ⟨p, t⟩ := e
    cases howner : owner? seen t with
    | some first =>
      refine ⟨[], es, first, p, t, rfl, ?_, ?_, by simpa using hseen⟩
      · rw [checkEntries, if_neg (by simp [hvisible]), requirePlain_eq_ok.2 hplain, howner]
        rfl
      · obtain ⟨f, hf, rfl⟩ := Option.map_eq_some_iff.1 howner
        have htable : f.2 = t := by simpa using List.find?_some hf
        subst htable
        simpa using List.mem_of_find?_eq_some hf
    | none =>
      have hnew : ((seen ++ [(p, t)]).map (·.2)).Nodup := by
        have := owner?_eq_none.1 howner
        rw [List.map_append]
        exact hseen.append (List.nodup_singleton _) (by simpa using this)
      have hrest : ¬ ((seen ++ [(p, t)] ++ es).map (·.2)).Nodup := by simpa using hdup
      obtain ⟨l, r, first, second, table, rfl, herror, hmem, hnodup⟩ := ih hes hnew hrest
      rw [List.append_assoc] at hmem hnodup
      refine ⟨(p, t) :: l, r, first, second, table, rfl, ?_, hmem, hnodup⟩
      rw [checkEntries, if_neg (by simp [hvisible]), requirePlain_eq_ok.2 hplain, howner]
      exact herror

/-- The entries before one are those of smaller predicates. -/
theorem Predicates.mem_left_iff {m : Predicates} {l r : List (String × String)} {e f : String × String}
    (h : m.entries = l ++ e :: r) : f ∈ l ↔ f ∈ m.entries ∧ f.1 < e.1 := by
  obtain ⟨-, hright, hcross⟩ := List.pairwise_append.1 (h ▸ m.ascending)
  constructor
  · intro hf
    exact ⟨h ▸ List.mem_append_left _ hf, hcross f hf e (List.mem_cons_self ..)⟩
  · rintro ⟨hf, hlt⟩
    rw [h, List.mem_append, List.mem_cons] at hf
    rcases hf with hf | rfl | hf
    · exact hf
    · exact absurd hlt (String.lt_irrefl _)
    · have hgt := (List.pairwise_cons.1 hright).1 f hf
      exact absurd (String.lt_trans hlt hgt) (String.lt_irrefl _)

/-- **The shared table that is reported** is that of the least predicate that repeats one, and the other predicate is the
only smaller one that has it. -/
theorem NamedRight.exists_check_eq_sharedTable (h : c.NamedRight) (htells : ¬ c.TellsPredicates) :
    ∃ table first second, c.check = .error (.sharedTable table first second) ∧
      c.predicates.get? second = some table ∧ (c.Repeats second ∧ ∀ p, c.Repeats p → second ≤ p) ∧
      ∀ q, q < second ∧ c.predicates.get? q = some table ↔ q = first := by
  have hok : ∀ e ∈ c.predicates.entries, Text.isEmptyOrBlank e.1 = false ∧ Sql.isPlain e.2 = true := fun e he => by
    have hget := Predicates.mem_entries_iff.1 he
    exact ⟨isEmptyOrBlank_eq_false.2 (h.visible _ _ hget), h.tables _ _ hget⟩
  have hdup : ¬ ((([] : List (String × String)) ++ c.predicates.entries).map (·.2)).Nodup :=
    mt tellsPredicates_iff.2 htells
  obtain ⟨l, r, first, second, table, hentries, herror, hfirst, hnodup⟩ := checkEntries_eq_sharedTable hok (by simp) hdup
  rw [List.nil_append] at hfirst hnodup
  have hleft : ∀ q t, (q, t) ∈ l ↔ q < second ∧ c.predicates.get? q = some t := fun q t => by
    rw [Predicates.mem_left_iff hentries, Predicates.mem_entries_iff, and_comm]
  have hsecond : c.predicates.get? second = some table :=
    Predicates.mem_entries_iff.1 (hentries ▸ List.mem_append_right _ (List.mem_cons_self ..))
  have hbefore : ∀ {q q' t}, (q, t) ∈ l → (q', t) ∈ l → q = q' := fun hq hq' =>
    congrArg Prod.fst (List.inj_on_of_nodup_map hnodup hq hq' rfl)
  obtain ⟨hlt, hget⟩ := (hleft first table).1 hfirst
  refine ⟨table, first, second, h.check_eq.trans herror, hsecond, ⟨⟨first, table, hlt, hget, hsecond⟩, ?_⟩, fun q => ?_⟩
  · rintro p ⟨q, t, hqp, hq, hp⟩
    -- A smaller predicate that repeats a table would stand before the second one, together with the one it repeats.
    refine String.not_lt.1 fun hps => ?_
    obtain rfl := hbefore ((hleft p t).2 ⟨hps, hp⟩) ((hleft q t).2 ⟨String.lt_trans hqp hps, hq⟩)
    exact String.lt_irrefl _ hqp
  · constructor
    · exact fun hq => hbefore ((hleft q table).2 hq) hfirst
    · rintro rfl
      exact ⟨hlt, hget⟩

/-- **How every catalog is answered.** It is accepted exactly if its names are right and its tables tell their
predicates. What is accepted finds the table of each predicate as the catalog has it, and no other, and lists the tables
in ascending order of the predicates. Where the names are right and some tables are shared, the answer names the least
predicate that repeats a table, that table, and the only smaller predicate that has it. -/
theorem accept_outcome (c : Catalog) :
    ((∃ d, c.accept = .ok d) ↔ c.NamedRight ∧ c.TellsPredicates) ∧
    (∀ d, c.accept = .ok d →
      (∀ p, d.tableFor p = ((c.predicates.get? p).map .ok).getD (.error (.unmapped p))) ∧
      ∃ ps : List String, ps.Pairwise (· < ·) ∧ (∀ p, p ∈ ps ↔ ∃ t, c.predicates.get? p = some t) ∧
        List.Forall₂ (fun p t => c.predicates.get? p = some t) ps d.predicates.tables) ∧
    (c.NamedRight → ¬ c.TellsPredicates → ∃ table first second,
      c.accept = .error (.sharedTable table first second) ∧ c.predicates.get? second = some table ∧
      (c.Repeats second ∧ ∀ p, c.Repeats p → second ≤ p) ∧
      ∀ q, q < second ∧ c.predicates.get? q = some table ↔ q = first) := by
  refine ⟨?_, fun d hd => ?_, fun hnamed htells => ?_⟩
  · rw [← isWellFormed_iff]
    exact ⟨fun ⟨d, hd⟩ => (accept_eq_ok.1 hd).1, fun h => ⟨c, accept_eq_ok.2 ⟨h, rfl⟩⟩⟩
  · obtain ⟨-, rfl⟩ := accept_eq_ok.1 hd
    refine ⟨fun p => ?_, c.predicates.entries.map (·.1), List.pairwise_map.2 c.predicates.ascending, fun p => ?_, ?_⟩
    · rw [tableFor]
      cases c.predicates.get? p <;> rfl
    · simp [← Predicates.mem_entries_iff]
    · rw [Predicates.tables, List.forall₂_map_left_iff, List.forall₂_map_right_iff, List.forall₂_same]
      exact fun e he => Predicates.mem_entries_iff.1 he
  · obtain ⟨table, first, second, hcheck, hrest⟩ := hnamed.exists_check_eq_sharedTable htells
    refine ⟨table, first, second, ?_, hrest⟩
    rw [accept, hcheck]
    rfl

/-- Where the two columns have their usual names and there are no further tables, only the entries have to be right. -/
theorem namedRight_of_entries {m : Predicates}
    (h : ∀ e ∈ m.entries, Text.isEmptyOrBlank e.1 = false ∧ Sql.isPlain e.2 = true) :
    NamedRight { predicates := m } where
  subjectColumn := (by decide : Sql.isPlain "s" = true)
  objectColumn := (by decide : Sql.isPlain "o" = true)
  subjectColumn_ne := (by decide : "s" ≠ "o")
  mapTable := nofun
  soTable := nofun
  visible := forall_mem_entries.1 fun e he => isEmptyOrBlank_eq_false.1 (h e he).1
  tables := forall_mem_entries.1 fun e he => (h e he).2

/-- Two predicates on two tables, the greater one written first. -/
def separate : Catalog where
  predicates := .ofPairs [("<b>", "t"), ("<a>", "u")]

/-- Four predicates on two tables, the greatest one written first. -/
def overlapping : Catalog where
  predicates := .ofPairs [("<d>", "t"), ("<c>", "u"), ("<b>", "u"), ("<a>", "t")]

/-- The two predicates are found and their tables listed in ascending order of the predicates; of the four predicates
the two in the middle are reported. -/
theorem separate_overlapping_outcome :
    (∃ d, separate.accept = .ok d ∧ d.tableFor "<a>" = .ok "u" ∧ d.tableFor "<c>" = .error (.unmapped "<c>") ∧
      d.predicates.tables = ["u", "t"] ∧ ∃ ps : List String, ps.Pairwise (· < ·) ∧
        (∀ p, p ∈ ps ↔ ∃ t, separate.predicates.get? p = some t) ∧
        List.Forall₂ (fun p t => separate.predicates.get? p = some t) ps d.predicates.tables) ∧
    (¬ ∃ d, overlapping.accept = .ok d) ∧ overlapping.NamedRight ∧ ¬ overlapping.TellsPredicates ∧
    overlapping.accept = .error (.sharedTable "u" "<b>" "<c>") ∧
    (overlapping.Repeats "<c>" ∧ ∀ p, overlapping.Repeats p → "<c>" ≤ p) ∧
    ∀ q, q < "<c>" ∧ overlapping.predicates.get? q = some "u" ↔ q = "<b>" := by
  have hentries : overlapping.predicates.entries = [("<a>", "t"), ("<b>", "u"), ("<c>", "u"), ("<d>", "t")] := by
    decide +kernel
  have hseparate : separate.predicates.entries = [("<a>", "u"), ("<b>", "t")] := by decide +kernel
  have hnamed : overlapping.NamedRight := namedRight_of_entries <| by
    change ∀ e ∈ overlapping.predicates.entries, _
    simp only [hentries, List.mem_cons, List.not_mem_nil, or_false, forall_eq_or_imp, forall_eq]
    decide
  have hnamed' : separate.NamedRight := namedRight_of_entries <| by
    change ∀ e ∈ separate.predicates.entries, _
    simp only [hseparate, List.mem_cons, List.not_mem_nil, or_false, forall_eq_or_imp, forall_eq]
    decide
  have hshared : ¬ overlapping.TellsPredicates := by
    rw [tellsPredicates_iff, Predicates.tables, hentries]
    decide
  have htells : separate.TellsPredicates := by
    rw [tellsPredicates_iff, Predicates.tables, hseparate]
    decide
  obtain ⟨haccepted, hanswers, -⟩ := accept_outcome separate
  obtain ⟨d, hd⟩ := haccepted.2 ⟨hnamed', htells⟩
  obtain ⟨hfor, hlisted⟩ := hanswers d hd
  have hfound : separate.predicates.get? "<a>" = some "u" := Predicates.get?_ofPairs ..
  have hmissing : separate.predicates.get? "<c>" = none := Predicates.get?_ofPairs ..
  obtain ⟨hrefused, -, hreported⟩ := accept_outcome overlapping
  obtain ⟨table, first, second, haccept, -, hleast, hunique⟩ := hreported hnamed hshared
  have hcheck : overlapping.check = .error (.sharedTable "u" "<b>" "<c>") := by decide +kernel
  have hanswer : overlapping.accept = .error (.sharedTable "u" "<b>" "<c>") := by
    rw [accept, hcheck]
    rfl
  cases haccept.symm.trans hanswer
  have htables : d.predicates.tables = ["u", "t"] := by
    obtain ⟨-, rfl⟩ := accept_eq_ok.1 hd
    rw [Predicates.tables, hseparate]
    rfl
  exact ⟨⟨d, hd, by rw [hfor, hfound]; rfl, by rw [hfor, hmissing]; rfl, htables, hlisted⟩,
    fun hok => hshared (hrefused.1 hok).2, hnamed, hshared, hanswer, hleast, hunique⟩

end Catalog
end TripleSql
