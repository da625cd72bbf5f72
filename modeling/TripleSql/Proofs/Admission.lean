/-
# Which catalogs are admitted

A catalog passes the check exactly if it is well formed (`check_eq_ok`). The check goes through the entries with those it
has seen before, so the tables that are still to come have to be different from one another and from the tables seen
(`checkEntries_eq_ok`). The two further tables take no part in that: one of them may be the table of a predicate, and
both may be one table.
-/

import Mathlib.Data.List.Nodup
import TripleSql.Catalog.Basic
import TripleSql.Proofs.Steps

namespace TripleSql

open Compile (bind_eq_ok_except)

namespace Catalog

/-- A catalog in which all names are plain, the columns different, the predicates visible, and no table serves two
predicates. -/
structure IsWellFormed (c : Catalog) : Prop where
  isPlain_subjectColumn : Sql.isPlain c.subjectColumn = true
  isPlain_objectColumn : Sql.isPlain c.objectColumn = true
  subjectColumn_ne : c.subjectColumn ≠ c.objectColumn
  isPlain_mapTable : ∀ t ∈ c.mapTable, Sql.isPlain t = true
  isPlain_soTable : ∀ t ∈ c.soTable, Sql.isPlain t = true
  visible : ∀ e ∈ c.predicates.entries, Text.isEmptyOrBlank e.1 = false
  isPlain_tables : ∀ t ∈ c.predicates.tables, Sql.isPlain t = true
  nodup_tables : c.predicates.tables.Nodup

/-- One check and the rest succeed if both do. -/
theorem andThen_eq_ok {ε α : Type} {x : Except ε Unit} {y : Except ε α} {a : α} :
    (x >>= fun _ => y) = .ok a ↔ x = .ok () ∧ y = .ok a := by
  rw [bind_eq_ok_except]
  exact ⟨fun ⟨_, hx, hy⟩ => ⟨hx, hy⟩, fun ⟨hx, hy⟩ => ⟨(), hx, hy⟩⟩

theorem requirePlain_eq_ok {place : NamePlace} {name : String} :
    requirePlain place name = .ok () ↔ Sql.isPlain name = true := by
  rw [requirePlain]
  split <;> simp_all

theorem requirePlain?_eq_ok {place : NamePlace} {name : Option String} :
    requirePlain? place name = .ok () ↔ ∀ n ∈ name, Sql.isPlain n = true := by
  cases name <;> simp [requirePlain?, requirePlain_eq_ok]

/-- A table has no owner exactly if it is none of the tables seen. -/
theorem owner?_eq_none {seen : List (String × String)} {table : String} :
    owner? seen table = none ↔ table ∉ seen.map (·.2) := by
  simp only [owner?, Option.map_eq_none_iff, List.find?_eq_none, List.mem_map]
  grind

/-- Entries pass the check if the first one does and the others do after it. -/
theorem checkEntries_cons_eq_ok {seen es : List (String × String)} {e : String × String} :
    checkEntries seen (e :: es) = .ok () ↔ (Text.isEmptyOrBlank e.1 = false ∧ Sql.isPlain e.2 = true) ∧
      e.2 ∉ seen.map (·.2) ∧ checkEntries (seen ++ [e]) es = .ok () := by
  rw [checkEntries]
  split
  · next hblank => simp [hblank]
  · next hblank =>
    rw [andThen_eq_ok, requirePlain_eq_ok, ← owner?_eq_none]
    cases owner? seen e.2 <;> simp [hblank]

/-- **The tables of entries are different from one another and from those seen.** -/
theorem checkEntries_eq_ok {seen es : List (String × String)} : checkEntries seen es = .ok () ↔
    (∀ e ∈ es, Text.isEmptyOrBlank e.1 = false ∧ Sql.isPlain e.2 = true) ∧ (es.map (·.2)).Nodup ∧
      (seen.map (·.2)).Disjoint (es.map (·.2)) := by
  induction es generalizing seen with
  | nil => simp [checkEntries]
  | cons e es ih =>
    rw [checkEntries_cons_eq_ok, ih, List.forall_mem_cons, List.map_cons, List.nodup_cons, List.disjoint_cons_right,
      List.map_append, List.disjoint_append_left]
    simp only [List.map_cons, List.map_nil, List.singleton_disjoint]
    tauto

/-- **A catalog passes the check exactly if it is well formed.** -/
theorem check_eq_ok {c : Catalog} : c.check = .ok () ↔ c.IsWellFormed := by
  rw [check, andThen_eq_ok, andThen_eq_ok, requirePlain_eq_ok, requirePlain_eq_ok]
  by_cases hcolumns : c.subjectColumn = c.objectColumn
  · simp only [if_pos hcolumns]
    exact ⟨fun ⟨_, _, h⟩ => (nomatch h), fun h => absurd hcolumns h.subjectColumn_ne⟩
  · simp only [if_neg hcolumns]
    rw [andThen_eq_ok, andThen_eq_ok, requirePlain?_eq_ok, requirePlain?_eq_ok, checkEntries_eq_ok]
    constructor
    · rintro ⟨hsubject, hobject, hmap, hso, hentries, hnodup, -⟩
      exact ⟨hsubject, hobject, hcolumns, hmap, hso, fun e he => (hentries e he).1,
        List.forall_mem_map.2 fun e he => (hentries e he).2, hnodup⟩
    · intro h
      exact ⟨h.isPlain_subjectColumn, h.isPlain_objectColumn, h.isPlain_mapTable, h.isPlain_soTable,
        fun e he => ⟨h.visible e he, h.isPlain_tables _ (List.mem_map_of_mem he)⟩, h.nodup_tables,
        List.disjoint_nil_left _⟩

/-- A catalog that is accepted is the one that was checked. -/
theorem accept_eq_ok {c d : Catalog} : c.accept = .ok d ↔ c.IsWellFormed ∧ c = d := by
  rw [accept, andThen_eq_ok, check_eq_ok]
  exact and_congr_right fun _ => ⟨Except.ok.inj, congrArg _⟩

/-- What passes the check is accepted as it is. -/
theorem accept_of_check {c : Catalog} (h : c.check = .ok ()) : c.accept = .ok c :=
  accept_eq_ok.2 ⟨check_eq_ok.1 h, rfl⟩

end Catalog
end TripleSql
