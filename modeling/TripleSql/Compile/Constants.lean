/-
# Constants that wait for a clause

A constant in a triple pattern is a condition on a column of the table that the pattern stands on. It is kept under
the alias of that table until a join takes the conditions of the alias, or until the end, when all that are left
become conditions of the whole statement.

Under one alias no two conditions are equivalent. At the end they are listed in ascending order of the aliases, those
of one alias in the order in which they came, and again each condition only once.

Source: specification, 4.4; `DeferredPredicates` with `add_value`, `take_values`, `drain_for_aliases`, `is_empty` and
`into_filters`.
-/

import TripleSql.Sql.Statement

namespace TripleSql
namespace Compile

open Sql

/-- Conditions under the aliases that they wait for, in the order in which they came. -/
structure Constants where
  entries : List (String × Condition) := []
deriving DecidableEq, Repr, Inhabited

namespace Constants

/-- The condition waits under the alias, unless an equivalent one does. -/
def add (k : Constants) (aliasName : String) (c : Condition) : Constants :=
  if k.entries.any (fun e => e.1 == aliasName && e.2.isEquivalent c) then k
  else ⟨k.entries ++ [(aliasName, c)]⟩

/-- The conditions that wait under an alias. -/
def under (k : Constants) (aliasName : String) : List Condition :=
  (k.entries.filter (·.1 == aliasName)).map (·.2)

/-- All but the conditions that wait under an alias. -/
def without (k : Constants) (aliasName : String) : Constants := ⟨k.entries.filter (·.1 != aliasName)⟩

/-- The conditions that wait under an alias, and the rest. -/
def take (k : Constants) (aliasName : String) : List Condition × Constants :=
  (k.under aliasName, k.without aliasName)

/-- The conditions that wait under some aliases, alias by alias, and the rest. -/
def takeAll (k : Constants) : List String → List Condition × Constants
  | [] => ([], k)
  | a :: as =>
    let r := takeAll (k.without a) as
    (k.under a ++ r.1, r.2)

/-- Taking an alias away leaves what waits under the others. -/
theorem under_without (k : Constants) (a b : String) :
    (k.without a).under b = if b = a then [] else k.under b := by
  simp only [under, without, List.filter_filter]
  split
  · next h => simp [h]
  · next h =>
    congr 1
    refine List.filter_congr fun e _ => ?_
    by_cases he : e.1 = b <;> simp_all

/-- **One alias is touched at a time:** a condition is added to those of its own alias. -/
theorem under_add (k : Constants) (a b : String) (c : Condition) :
    (k.add a c).under b = if b = a then Condition.push (k.under a) c else k.under b := by
  have hany : k.entries.any (fun e => e.1 == a && e.2.isEquivalent c) =
      (k.under a).any (·.isEquivalent c) := by
    simp [under, List.any_map, List.any_filter, Function.comp_def]
  unfold add Condition.push
  rw [hany]
  split
  · split
    · next h => rw [h]
    · rfl
  · split
    · next h => simp [under, h]
    · next h => simp [under, Ne.symm h]

/-- Nothing waits. -/
def isEmpty (k : Constants) : Bool := k.entries.isEmpty

/-- All conditions that wait, in ascending order of their aliases, each once. -/
def conditions (k : Constants) : List Condition :=
  Condition.distinct ((k.entries.mergeSort (fun e f => e.1 ≤ f.1)).map (·.2))

end Constants
end Compile
end TripleSql
