/-
# Filters that wait for a join

A filter of a graph pattern becomes a condition at the first join at which one of its variables has a column in the
joined tables and all of them are bound. The filters that are ready are taken variable by variable, in the order of the
joined columns, and for one variable in the order in which they were written:

| waiting | joined variables | bound | taken |
| --- | --- | --- | --- |
| `?a < ?b`, `?b = "x"` | `a b` | `a` | nothing |
| `?a < ?b`, `?b = "x"` | `a b` | `a b` | both, as written |
| `?b = "x"`, `?a < ?b` | `a b` | `a b` | `?a < ?b` first: `a` comes before `b` |

A graph pattern of one triple pattern has no join. Its filters are turned into conditions at the end, a variable
standing for the pattern's own column where it has one.

Source: specification, 4.3 and 4.4; what `FilterPool` answers, and `render_filter`. The index and the marks of a pool
are in `TripleSql.Compile.FilterPool`.
-/

import TripleSql.Compile.Bindings
import TripleSql.Compile.Error

namespace TripleSql
namespace Compile

open Pattern Sql

/-- The operand of a node, a variable standing for its column. -/
def operandOf? (column? : String → Option Column) : Node → Option Operand
  | .var v => (column? v).map .column
  | .const x => some (.literal x)

/-- The condition of a filter, its variables standing for the given columns. -/
def conditionOf? (column? : String → Option Column) (f : Filter) : Option Condition := do
  return ⟨← operandOf? column? f.left, f.operator, ← operandOf? column? f.right⟩

/-- The filters that no condition stands for yet, their operators spelled as in SQL. -/
structure Pending where
  filters : List Filter := []
deriving DecidableEq, Repr, Inhabited

namespace Pending

/-- The filter with its operator spelled as in SQL, if it may wait. -/
def accept (f : Filter) : Except Error Filter :=
  match Comparison.ofText? f.operator with
  | none => .error (.unknownOperator f)
  | some c => if f.vars = [] then .error (.constantFilter f) else .ok { f with operator := c.text }

/-- The filters of a graph pattern, if all may wait. -/
def ofFilters (fs : List Filter) : Except Error Pending := (fs.mapM accept).map (⟨·⟩)

/-- The filter has the variable, and all of its variables are bound. -/
def isReady (b : Bindings) (v : String) (f : Filter) : Bool :=
  f.vars.contains v && (conditionOf? b.column? f).isSome

/-- The conditions of the filters that are ready at a variable, and the rest. -/
def takeAt (b : Bindings) (v : String) (p : Pending) : List Condition × Pending :=
  ((p.filters.filter (isReady b v)).filterMap (conditionOf? b.column?),
    ⟨p.filters.filter (!isReady b v ·)⟩)

/-- The conditions of the filters that are ready at some variables, variable by variable, and the rest. -/
def takeEach (b : Bindings) : List String → Pending → List Condition × Pending
  | [], p => ([], p)
  | v :: vs, p =>
    let r := takeAt b v p
    let q := takeEach b vs r.2
    (r.1 ++ q.1, q.2)

/-- The same, each condition once. -/
def take (b : Bindings) (vs : List String) (p : Pending) : List Condition × Pending :=
  let r := takeEach b vs p
  (Condition.distinct r.1, r.2)

/-- The condition of a filter whose variables must have columns. -/
def conditionOf (column? : String → Option Column) (f : Filter) : Except Error Condition :=
  match conditionOf? column? f with
  | some c => .ok c
  | none => .error (.unboundVariable f)

/-- The conditions of all filters, each once, if every variable has a column. -/
def conditions (column? : String → Option Column) (p : Pending) : Except Error (List Condition) :=
  (p.filters.mapM (conditionOf column?)).map Condition.distinct

/-- No filter waits. -/
def isEmpty (p : Pending) : Bool := p.filters.isEmpty

end Pending
end Compile
end TripleSql
