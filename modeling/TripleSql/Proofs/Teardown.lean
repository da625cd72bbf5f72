/-
# What a teardown drops

A catalog that is accepted is torn down by one statement for each place that a table has in it:

| place | what the check says of its table |
| --- | --- |
| a predicate | it is a plain name and the table of no other predicate |
| subjects and objects | it is a plain name |
| the map | it is a plain name |

So every table of the catalog is dropped, and nothing else is (`mem_teardown`). A table is dropped twice exactly if it
has two places. The tables of predicates are different, but the check says nothing of the other two (`nodup_teardown`).
-/

import TripleSql.Proofs.Admission

namespace TripleSql
namespace Catalog

/-- The catalog names the table: for a predicate, for subjects and objects, or for the map. -/
def Names (c : Catalog) (t : String) : Prop := t ∈ c.predicates.tables ∨ c.soTable = some t ∨ c.mapTable = some t

/-- The two further tables are different from each other and from the tables of all predicates. -/
structure FurtherTablesApart (c : Catalog) : Prop where
  soTable_not_mem : ∀ t ∈ c.soTable, t ∉ c.predicates.tables
  mapTable_not_mem : ∀ t ∈ c.mapTable, t ∉ c.predicates.tables
  mapTable_ne : ∀ t ∈ c.soTable, c.mapTable ≠ some t

theorem dropTable_injective : dropTable.Injective := fun _ _ h => (String.append_right_inj _).1 h

/-- **A teardown drops the tables that the catalog names and no others.** -/
theorem mem_teardown {c : Catalog} {s : String} : s ∈ c.teardown ↔ ∃ t, c.Names t ∧ s = dropTable t := by
  simp only [teardown, List.mem_map, List.mem_append, Option.mem_toList, Names, or_assoc, eq_comm]

/-- The tables of predicates being different, no statement occurs twice exactly if the other tables are apart. -/
theorem nodup_teardown {c : Catalog} (h : c.predicates.tables.Nodup) : c.teardown.Nodup ↔ c.FurtherTablesApart := by
  have hnodup : ∀ o : Option String, o.toList.Nodup := fun o => by cases o <;> simp
  rw [teardown, List.nodup_map_iff dropTable_injective, List.nodup_append', List.nodup_append',
    List.disjoint_append_left]
  constructor
  · rintro ⟨⟨-, -, hso⟩, -, hmap, hne⟩
    exact ⟨fun t ht hmem => hso hmem (Option.mem_toList.2 ht), fun t ht hmem => hmap hmem (Option.mem_toList.2 ht),
      fun t ht hmem => hne (Option.mem_toList.2 ht) (Option.mem_toList.2 hmem)⟩
  · intro hapart
    refine ⟨⟨h, hnodup _, fun t hmem ht => ?_⟩, hnodup _, fun t hmem ht => ?_, fun t hso hmap => ?_⟩
    · exact hapart.soTable_not_mem t (Option.mem_toList.1 ht) hmem
    · exact hapart.mapTable_not_mem t (Option.mem_toList.1 ht) hmem
    · exact hapart.mapTable_ne t (Option.mem_toList.1 hso) (Option.mem_toList.1 hmap)

/-- **A catalog that is accepted has each of its tables dropped, and nothing else; and each once exactly if the tables
for subjects and objects and for the map are apart.** -/
theorem teardown_of_accept {c d : Catalog} (h : c.accept = .ok d) :
    (∀ s, s ∈ d.teardown ↔ ∃ t, c.Names t ∧ s = "DROP TABLE " ++ t) ∧ (d.teardown.Nodup ↔ c.FurtherTablesApart) := by
  obtain ⟨hwell, rfl⟩ := accept_eq_ok.1 h
  exact ⟨fun s => mem_teardown, nodup_teardown hwell.nodup_tables⟩

/-- A catalog of two predicates with the two further tables. -/
def acquaintances (soTable mapTable : Option String) : Catalog where
  soTable := soTable
  mapTable := mapTable
  predicates := .ofPairs [("<knows>", "knows"), ("<likes>", "likes")]

theorem nodup_teardown_acquaintances :
    (acquaintances (some "terms") (some "names")).accept = .ok (acquaintances (some "terms") (some "names")) ∧
      (acquaintances (some "terms") (some "names")).teardown.Nodup := by
  have haccept := accept_of_check (c := acquaintances (some "terms") (some "names")) (by decide +kernel)
  refine ⟨haccept, (teardown_of_accept haccept).2.2 ⟨?_, ?_, ?_⟩⟩ <;> decide +kernel

/-- A table for both subjects and objects and the map is dropped twice, and so is a further table that a predicate
has. -/
theorem not_nodup_teardown_acquaintances :
    ((acquaintances (some "terms") (some "terms")).accept = .ok (acquaintances (some "terms") (some "terms")) ∧
      (acquaintances (some "terms") (some "terms")).teardown.count "DROP TABLE terms" = 2 ∧
      ¬ (acquaintances (some "terms") (some "terms")).teardown.Nodup) ∧
    (acquaintances none (some "likes")).accept = .ok (acquaintances none (some "likes")) ∧
      (acquaintances none (some "likes")).teardown.count "DROP TABLE likes" = 2 ∧
      ¬ (acquaintances none (some "likes")).teardown.Nodup := by
  refine ⟨⟨accept_of_check ?_, ?_, ?_⟩, accept_of_check ?_, ?_, ?_⟩ <;> decide +kernel

end Catalog
end TripleSql
