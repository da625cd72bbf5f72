/-
# Aliases

A statement may use a table many times, each time under an alias of its own. The first use of a predicate is called
by the bare name of its table, the use number `k` after it by the name followed by `_k`. A number is skipped where
its alias is taken, which happens when two predicates share a table or when a table is called like the numbered
alias of another one:

| tables of `p`, `q` | uses | aliases |
| --- | --- | --- |
| `t`, `u` | `p p q p` | `t`, `t_1`, `u`, `t_2` |
| `t`, `t_1` | `q p p` | `t_1`, `t`, `t_2` |
| `t`, `t` | `p q p` | `t`, `t_1`, `t_2` |

The numbers of a predicate only grow. A use that fails, of a variable or of a predicate without a table, takes
nothing.

Source: specification, 4.1; `PredicateTableResolver` with `resolve` and `reset`, `TableLocator` and `MappedTable`.
-/

import TripleSql.Catalog.Basic
import TripleSql.Pattern.Node
import TripleSql.Sql.Statement

namespace TripleSql
namespace Catalog

/-- The alias of use number `k` of a table. -/
def numbered (table : String) (k : Nat) : String :=
  if k = 0 then table else table ++ "_" ++ k.repr

/-- The first number from `k` on whose alias is not taken. A taken alias is struck off when it is met, so the search
ends; it is not met again, since the aliases of a table under different numbers are different. -/
def freeNumber (taken : List String) (table : String) (k : Nat) : Nat :=
  if numbered table k ∈ taken then freeNumber (taken.erase (numbered table k)) table (k + 1) else k
termination_by taken.length
decreasing_by
  next h => rw [List.length_erase_of_mem h]; exact Nat.sub_lt (List.length_pos_of_mem h) Nat.one_pos

/-- The aliases that are taken, and the next number of each predicate, the newest entry of a predicate first. -/
structure Aliases where
  next : List (String × Nat) := []
  taken : List String := []
deriving DecidableEq, Repr, Inhabited

namespace Aliases

/-- The number from which the next use of a predicate looks for an alias. -/
def nextNumber (a : Aliases) (predicate : String) : Nat := (a.next.lookup predicate).getD 0

/-- The number of the next use of a predicate with the given table. -/
def number (a : Aliases) (predicate table : String) : Nat :=
  freeNumber a.taken table (a.nextNumber predicate)

/-- The next use of a predicate with the given table. -/
def issue (a : Aliases) (predicate table : String) : Sql.Table × Aliases :=
  let k := a.number predicate table
  (⟨table, numbered table k⟩, ⟨(predicate, k + 1) :: a.next, a.taken ++ [numbered table k]⟩)

end Aliases

/-- Where the table of a predicate is found, and what is answered where the predicate is a variable. -/
structure Locator (ε : Type) where
  tableFor : String → Except ε String
  refusal : String → ε

namespace Locator

variable {ε : Type}

/-- The next use of the table of a predicate. -/
def resolve (l : Locator ε) : Pattern.Node → EStateM ε Aliases Sql.Table
  | .var name => throw (l.refusal name)
  | .const predicate => do
    let table ← MonadExcept.ofExcept (l.tableFor predicate)
    modifyGet fun a => a.issue predicate table

end Locator

/-- The tables of the predicates that a catalog maps. -/
def locator (c : Catalog) : Locator LookupError := ⟨c.tableFor, .variablePredicate⟩

/-- The next use of the table of a predicate, and what is taken after it. -/
def resolve (c : Catalog) (a : Aliases) (n : Pattern.Node) : Except LookupError (Sql.Table × Aliases) :=
  match c.locator.resolve n a with
  | .ok table aliases => .ok (table, aliases)
  | .error e _ => .error e

end Catalog
end TripleSql
