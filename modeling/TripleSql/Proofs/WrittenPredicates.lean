/-
# Which predicates can be written

A catalog holds its predicates as they are and refuses them only if they are blank. A query names a predicate by a text
that is read as a node, so some predicates of a catalog have no text:

| predicate of the catalog | the same text in a query | what is looked up |
| --- | --- | --- |
| `<knows>`, `has age` | the constant itself | the predicate |
| ` <knows>` | the constant `<knows>` | another predicate, or none |
| `?knows` | the variable `knows` | nothing |
| `?`, `? knows` | refused | nothing |

A predicate without outer blanks that does not start with `?` is found under its own text, whatever aliases are taken.
Every other one is out of reach: no text at all leads to its table (`leadsTo_iff`).
-/

import TripleSql.Proofs.Admission
import TripleSql.Proofs.Freshness
import TripleSql.Proofs.NodeTexts

namespace TripleSql
namespace Catalog

open Pattern

/-- **The text leads to the table:** it is read as a node that every use of finds the table, whatever is taken. -/
def LeadsTo (c : Catalog) (text table : String) : Prop :=
  ∃ n, Node.parse text = .ok n ∧ ∀ a : Aliases, ∃ t a', c.resolve a n = .ok (t, a') ∧ t.name = table

/-- The predicate has no outer blanks and does not look like a variable. -/
def IsWritable (predicate : String) : Prop :=
  Text.trim predicate = predicate ∧ predicate.toList.head? ≠ some '?'

variable {c : Catalog} {p q table text : String} {n : Node}

/-- In a well-formed catalog a table tells its predicate. -/
theorem IsWellFormed.predicate_ext (h : c.IsWellFormed) (hp : c.predicates.get? p = some table)
    (hq : c.predicates.get? q = some table) : p = q :=
  congrArg Prod.fst (List.inj_on_of_nodup_map h.nodup_tables (mem_of_lookup hp) (mem_of_lookup hq) rfl)

/-- The predicates of a well-formed catalog that can be written are the constants that some text is read as. -/
theorem IsWellFormed.isWritable_iff (h : c.IsWellFormed) (hp : c.predicates.get? p = some table) :
    IsWritable p ↔ (Node.const p).IsWellFormed := by
  have hne : p ≠ "" := by
    rintro rfl
    have hvisible : Text.isEmptyOrBlank "" = false := h.visible _ (mem_of_lookup hp)
    exact absurd hvisible (by decide)
  exact ⟨fun hw => ⟨hne, hw⟩, fun hw => hw.2⟩

/-- **A table that a text leads to belongs to a predicate that can be written,** and the text is read as that predicate. -/
theorem IsWellFormed.isWritable_of_parse (h : c.IsWellFormed) (hp : c.predicates.get? p = some table)
    (hn : Node.parse text = .ok n) {a a' : Aliases} {t : Sql.Table} (ht : c.resolve a n = .ok (t, a'))
    (htable : t.name = table) : IsWritable p := by
  obtain ⟨q, rfl, hq, -⟩ := resolve_eq_ok ht
  obtain rfl := h.predicate_ext hp (htable ▸ hq)
  exact (h.isWritable_iff hp).2 (Node.exists_parse_eq_ok.1 ⟨text, hn⟩)

/-- **Exactly the predicates that can be written are found under their own text;** no text leads to the table of any
other one. -/
theorem leadsTo_iff {d : Catalog} (h : c.accept = .ok d) (hp : c.predicates.get? p = some table) :
    (d.LeadsTo p table ↔ IsWritable p) ∧
      (¬ IsWritable p → ∀ text n a t a', Node.parse text = .ok n → d.resolve a n = .ok (t, a') → t.name ≠ table) := by
  obtain ⟨hwell, rfl⟩ := accept_eq_ok.1 h
  refine ⟨⟨?_, fun hw => ?_⟩, fun hw text n a t a' hn ht htable => hw (hwell.isWritable_of_parse hp hn ht htable)⟩
  · rintro ⟨n, hn, hresolve⟩
    obtain ⟨t, a', ht, htable⟩ := hresolve {}
    exact hwell.isWritable_of_parse hp hn ht htable
  · have hread : Node.parse p = .ok (.const p) := ((hwell.isWritable_iff hp).1 hw).parse_text
    exact ⟨_, hread, fun a => ⟨_, _, resolve_of_get? hp, rfl⟩⟩

/-- A catalog in which two predicates are the same but for a blank, and one looks like a variable. -/
def nearlyAlike : Catalog where
  predicates := .ofPairs [("<knows>", "knows"), (" <knows>", "spaced"), ("?knows", "asked"), ("has age", "age")]

theorem nearlyAlike_leadsTo : nearlyAlike.accept = .ok nearlyAlike ∧
    nearlyAlike.predicates.get? "has age" = some "age" ∧ nearlyAlike.LeadsTo "has age" "age" := by
  have haccept := accept_of_check (c := nearlyAlike) (by decide +kernel)
  have hget : nearlyAlike.predicates.get? "has age" = some "age" := by decide +kernel
  exact ⟨haccept, hget, (leadsTo_iff haccept hget).1.2 ⟨by decide +kernel, by decide +kernel⟩⟩

/-- **Not every predicate of an accepted catalog is found under its own text:** one with an outer blank has the table of
another predicate there, and one with `?` in front has none. -/
theorem nearlyAlike_not_leadsTo : nearlyAlike.accept = .ok nearlyAlike ∧
    (nearlyAlike.predicates.get? " <knows>" = some "spaced" ∧ ¬ nearlyAlike.LeadsTo " <knows>" "spaced" ∧
      nearlyAlike.LeadsTo " <knows>" "knows") ∧
    nearlyAlike.predicates.get? "?knows" = some "asked" ∧ ¬ nearlyAlike.LeadsTo "?knows" "asked" := by
  have hknows : nearlyAlike.predicates.get? "<knows>" = some "knows" := by decide +kernel
  have hspaced : Node.parse " <knows>" = .ok (.const "<knows>") := by decide +kernel
  have hasked : Node.parse "?knows" = .ok (.var "knows") := by decide +kernel
  refine ⟨accept_of_check (by decide +kernel), ⟨by decide +kernel, ?_, ?_⟩, by decide +kernel, ?_⟩
  · rintro ⟨n, hn, hresolve⟩
    cases hspaced.symm.trans hn
    obtain ⟨t, a', ht, htable⟩ := hresolve {}
    cases (resolve_of_get? (a := {}) hknows).symm.trans ht
    exact absurd htable (by decide)
  · exact ⟨_, hspaced, fun a => ⟨_, _, resolve_of_get? hknows, rfl⟩⟩
  · rintro ⟨n, hn, hresolve⟩
    cases hasked.symm.trans hn
    obtain ⟨t, a', ht, -⟩ := hresolve {}
    cases ht

end Catalog
end TripleSql
