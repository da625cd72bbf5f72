/-
# The SQL text of a statement

| part | text |
| --- | --- |
| condition | left side, operator, right side, with a space between two of them |
| several conditions | ` AND ` between two of them |
| inner join with conditions | `JOIN s ON (…)` |
| inner join without conditions | `CROSS JOIN s` |
| left outer join | `LEFT OUTER JOIN s ON (…)`, the parentheses also when no condition stands in them |
| nested tree | in parentheses, unless it is a lone source |
| statement | `SELECT … FROM …`, then ` WHERE …` if there are conditions and ` ORDER BY …` if there is an ordering |

Source: specification, 4.5 and 6; `to_sql` of `ColumnRef`, `Operand`, `Condition`, `FromSource`, `JoinStep`,
`JoinTree`, `OrderByItem` and `SqlStatement`, and `and_joined`.
-/

import TripleSql.Sql.Name
import TripleSql.Sql.Statement

namespace TripleSql
namespace Sql

namespace Column

/-- The column under the alias of its table. -/
def text (c : Column) : String := qualified c.tableAlias c.name

end Column

namespace Operand

/-- The text of an operand. -/
def text : Operand → String
  | column c => c.text
  | literal v => quoteLiteral v

end Operand

namespace Condition

/-- The text of a condition. -/
def text (c : Condition) : String := c.left.text ++ " " ++ c.operator ++ " " ++ c.right.text

/-- The text of conditions that all have to hold. -/
def conjunction (cs : List Condition) : String := " AND ".intercalate (cs.map text)

end Condition

namespace Table

/-- The table as a source of a `FROM` clause. -/
def text (t : Table) : String := declared t.name t.aliasName

end Table

namespace JoinKind

/-- The text of a join with a source of the given text. -/
def text (kind : JoinKind) (source : String) (on : List Condition) : String :=
  match kind, on with
  | inner, [] => "CROSS JOIN " ++ source
  | inner, _ => "JOIN " ++ source ++ " ON (" ++ Condition.conjunction on ++ ")"
  | leftOuter, _ => "LEFT OUTER JOIN " ++ source ++ " ON (" ++ Condition.conjunction on ++ ")"

end JoinKind

mutual

/-- The text of a source. -/
def Source.text : Source → String
  | .table t => t.text
  | .nested tree =>
    match tree with
    | .base _ => tree.text
    | .join .. => "(" ++ tree.text ++ ")"

/-- The text of a tree. -/
def JoinTree.text : JoinTree → String
  | .base s => s.text
  | .join l kind r on => l.text ++ " " ++ kind.text r.text on

end

namespace Direction

/-- The text of a direction. -/
def text : Direction → String
  | ascending => "ASC"
  | descending => "DESC"

end Direction

namespace OrderBy

/-- The text of an `ORDER BY` clause. -/
def text (o : OrderBy) : String := "ORDER BY " ++ o.column.text ++ " " ++ o.direction.text

end OrderBy

namespace Statement

/-- The text of a statement. -/
def text (s : Statement) : String :=
  "SELECT " ++ ", ".intercalate (s.select.map Column.text) ++ " FROM " ++ s.tables.text ++
    (if s.conditions = [] then "" else " WHERE " ++ Condition.conjunction s.conditions) ++
    (match s.ordering with
      | none => ""
      | some o => " " ++ o.text)

end Statement
end Sql
end TripleSql
