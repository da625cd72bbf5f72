/-
# Aliases are fresh

Numbering a table gives different aliases for different numbers, so the search for a free number passes over a taken
alias at most once and ends at one that is not taken. Every use of a table therefore has an alias that no other use
has, whatever the catalog.
-/

import Mathlib
import TripleSql.Catalog.Alias

namespace TripleSql
namespace Catalog

/-- **Different numbers give different aliases** of one table. -/
theorem numbered_injective (table : String) : Function.Injective (numbered table) := by
  have length_lt : ∀ k, table.length < (table ++ "_" ++ Nat.repr k).length := fun k => by
    simp only [String.length_append]
    have : "_".length = 1 := rfl
    omega
  intro j k h
  unfold numbered at h
  split at h <;> split at h
  · next hj hk => rw [hj, hk]
  · exact absurd (congrArg String.length h) (length_lt k).ne
  · exact absurd (congrArg String.length h) (length_lt j).ne'
  · exact Nat.repr_injective (String.append_right_inj _ |>.1 h)

/-- **The number that is found is free,** and not before the one at which the search starts. -/
theorem freeNumber_free (taken : List String) (table : String) (k : Nat) :
    k ≤ freeNumber taken table k ∧ numbered table (freeNumber taken table k) ∉ taken := by
  fun_induction freeNumber taken table k with
  | case1 taken k h ih =>
    obtain ⟨hle, hfree⟩ := ih
    refine ⟨by omega, fun hmem => hfree ?_⟩
    have hne : numbered table (freeNumber (taken.erase (numbered table k)) table (k + 1)) ≠
        numbered table k := fun he => by
      have := numbered_injective table he
      omega
    exact (List.mem_erase_of_ne hne).2 hmem
  | case2 taken k h => exact ⟨le_rfl, h⟩

namespace Locator

variable {ε : Type} {l : Locator ε} {a a' : Aliases} {p table : String} {n : Pattern.Node} {t : Sql.Table} {e : ε}

theorem resolve_of_error (h : l.tableFor p = .error e) : l.resolve (.const p) a = .error e a := by
  rw [resolve, h]
  rfl

theorem resolve_of_ok (h : l.tableFor p = .ok table) :
    l.resolve (.const p) a = .ok (a.issue p table).1 (a.issue p table).2 := by
  rw [resolve, h]
  rfl

/-- What resolving a predicate does: it uses the table of the predicate under an alias that was not taken. -/
theorem resolve_eq_ok (h : l.resolve n a = .ok t a') :
    ∃ p, n = .const p ∧ l.tableFor p = .ok t.name ∧ t.aliasName ∉ a.taken ∧ a'.taken = a.taken ++ [t.aliasName] := by
  cases n with
  | var name => cases h
  | const p =>
    cases ht : l.tableFor p with
    | error e =>
      rw [resolve_of_error ht] at h
      cases h
    | ok table =>
      rw [resolve_of_ok ht] at h
      cases h
      exact ⟨p, rfl, ht, (freeNumber_free ..).2, rfl⟩

end Locator

/-- A predicate with a table is used under the next alias of the table. -/
theorem resolve_of_get? {c : Catalog} {a : Aliases} {p table : String} (h : c.predicates.get? p = some table) :
    c.resolve a (.const p) = .ok (a.issue p table) := by
  have hfor : c.locator.tableFor p = .ok table := by
    change c.tableFor p = .ok table
    rw [tableFor, h]
  rw [resolve, Locator.resolve_of_ok hfor]

/-- What resolving a predicate of a catalog does. -/
theorem resolve_eq_ok {c : Catalog} {a a' : Aliases} {n : Pattern.Node} {t : Sql.Table}
    (h : c.resolve a n = .ok (t, a')) :
    ∃ predicate, n = .const predicate ∧ c.predicates.get? predicate = some t.name ∧
      t.aliasName ∉ a.taken ∧ a'.taken = a.taken ++ [t.aliasName] := by
  unfold resolve at h
  split at h
  · next hr =>
    cases h
    obtain ⟨predicate, hn, ht, hfree, htaken⟩ := Locator.resolve_eq_ok hr
    refine ⟨predicate, hn, ?_, hfree, htaken⟩
    change c.tableFor predicate = .ok t.name at ht
    unfold tableFor at ht
    split at ht
    · next hget =>
      cases ht
      exact hget
    · cases ht
  · cases h

end Catalog
end TripleSql
