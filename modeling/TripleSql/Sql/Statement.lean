/-
# Statements

The parts of `SELECT … FROM … [WHERE …] [ORDER BY …]` before they are text.

A `FROM` clause is a join tree: a source, and any number of joins to its right. A source is a table or a tree in
parentheses. Trees grow at the end, so the last join is the outermost constructor:

| text | tree |
| --- | --- |
| `a` | `base a` |
| `a JOIN b ON (p)` | `join (base a) inner b [p]` |
| `a JOIN b ON (p) LEFT OUTER JOIN c ON (q)` | `join (join (base a) inner b [p]) leftOuter c [q]` |

Two conditions are equivalent if they are the same, or one equality with its sides exchanged. A list of
conditions is kept free of equivalent pairs by adding a condition only if it has no equivalent there.

Source: specification, 4.3 and 4.5; `ColumnRef`, `Operand`, `Condition` with `table_aliases`, `is_equivalent` and
`is_scoped_to`, `push_unique`, `FromSource`, `JoinStep`, `JoinTree` with `aliases`, and `SqlStatement`.
-/

namespace TripleSql
namespace Sql

/-- A column of the table with the given alias. -/
structure Column where
  tableAlias : String
  name : String
deriving DecidableEq, Repr, Inhabited

/-- A side of a condition. -/
inductive Operand where
  | column (column : Column)
  | literal (value : String)
deriving DecidableEq, Repr

/-- The comparison of two operands. -/
structure Condition where
  left : Operand
  operator : String
  right : Operand
deriving DecidableEq, Repr

/-- A stored table under the alias that columns name it by. -/
structure Table where
  name : String
  aliasName : String
deriving DecidableEq, Repr

/-- Whether a row of the left side that has no partner is dropped or kept. -/
inductive JoinKind where
  | inner
  | leftOuter
deriving DecidableEq, Repr

mutual

/-- What stands on the right of a join. -/
inductive Source where
  | table (table : Table)
  | nested (tree : JoinTree)
deriving DecidableEq, Repr

/-- A source, or a tree with one more source joined on the right. -/
inductive JoinTree where
  | base (source : Source)
  | join (left : JoinTree) (kind : JoinKind) (right : Source) (on : List Condition)
deriving DecidableEq, Repr

end

/-- The direction of an ordering. -/
inductive Direction where
  | ascending
  | descending
deriving DecidableEq, Repr

/-- The column that rows are ordered by. -/
structure OrderBy where
  column : Column
  direction : Direction
deriving DecidableEq, Repr

/-- A query over joined tables. -/
structure Statement where
  select : List Column
  tables : JoinTree
  conditions : List Condition
  ordering : Option OrderBy
deriving DecidableEq, Repr

namespace Operand

/-- The alias of the table that the operand reads, if it reads one. -/
def alias? : Operand → Option String
  | column c => some c.tableAlias
  | literal _ => none

end Operand

namespace Condition

/-- Two columns are equal. -/
def columnsEqual (a b : Column) : Condition := ⟨.column a, "=", .column b⟩

/-- A column has a value. -/
def columnIs (c : Column) (value : String) : Condition := ⟨.column c, "=", .literal value⟩

/-- The aliases of the tables that the condition reads, left side first. -/
def aliases (c : Condition) : List String := [c.left, c.right].filterMap Operand.alias?

/-- The condition reads no table but those of the given aliases. -/
def isScopedTo (c : Condition) (aliases : List String) : Bool := c.aliases.all aliases.contains

/-- Equal, or the same equality with its sides exchanged. -/
def isEquivalent (c d : Condition) : Bool :=
  c == d || (c.operator == "=" && d.operator == "=" && c.left == d.right && c.right == d.left)

/-- The list with the condition at its end, or as it is if the list has an equivalent one. -/
def push (cs : List Condition) (c : Condition) : List Condition :=
  if cs.any (·.isEquivalent c) then cs else cs ++ [c]

/-- The list with the conditions of another one added in turn. -/
def pushAll (cs ds : List Condition) : List Condition := ds.foldl push cs

/-- The first condition of each class of equivalent ones, in order. -/
def distinct (cs : List Condition) : List Condition := pushAll [] cs

end Condition

mutual

/-- The tables of a source, left to right. -/
def Source.tables : Source → List Table
  | .table t => [t]
  | .nested tree => tree.tables

/-- The tables of a tree, left to right. -/
def JoinTree.tables : JoinTree → List Table
  | .base s => s.tables
  | .join l _ r _ => l.tables ++ r.tables

end

namespace JoinTree

/-- The aliases of the tables of a tree, left to right. -/
def aliases (t : JoinTree) : List String := t.tables.map (·.aliasName)

/-- The source that the tree starts with. -/
def root : JoinTree → Source
  | .base s => s
  | .join l _ _ _ => l.root

/-- The joins of a tree, in order. -/
def joins : JoinTree → List (JoinKind × Source × List Condition)
  | .base _ => []
  | .join l kind r on => l.joins ++ [(kind, r, on)]

/-- The tree that starts with a source and has the given joins. -/
def ofJoins (root : Source) (joins : List (JoinKind × Source × List Condition)) : JoinTree :=
  joins.foldl (fun t j => .join t j.1 j.2.1 j.2.2) (.base root)

/-- A tree is made of the source that it starts with and of its joins. -/
theorem ofJoins_root_joins : (t : JoinTree) → ofJoins t.root t.joins = t
  | .base _ => rfl
  | .join l _ _ _ => by
    have := ofJoins_root_joins l
    simp_all [ofJoins, root, joins]

/-- A tree of one table alone. -/
def single? : JoinTree → Option Table
  | .base (.table t) => some t
  | _ => none

end JoinTree
end Sql
end TripleSql
