/-
# Statements as documents

| part | document |
| --- | --- |
| column | `table_alias`, `column` |
| operand | `Column` with a column, or `Literal` with a text |
| condition | `left`, `operator`, `right` |
| table | `name`, `alias` |
| source | `Table` with a table, or `Nested` with a tree |
| join | `join_type` (`Inner`, `LeftOuter`), `source`, `on` |
| tree | `base` with a source, `steps` with the joins in order |
| ordering | `column`, `direction` (`Asc`, `Desc`) |
| statement | `select`, `from`, `filters`, `order_by`, which may be nothing or missing |

Where one of several things may stand, it is a table whose only key says which one it is.

Source: specification, 6; the serialized forms of `SqlStatement` and its parts.
-/

import TripleSql.Document.Dialect
import TripleSql.Sql.Statement

namespace TripleSql
namespace Sql

/-- The document of a column. -/
def Column.toDocument (c : Column) : Document :=
  .record [("table_alias", .ofText c.tableAlias), ("column", .ofText c.name)]

/-- The document of an operand. -/
def Operand.toDocument : Operand → Document
  | .column c => .record [("Column", c.toDocument)]
  | .literal v => .record [("Literal", .ofText v)]

/-- The document of a condition. -/
def Condition.toDocument (c : Condition) : Document :=
  .record [
    ("left", c.left.toDocument), ("operator", .ofText c.operator), ("right", c.right.toDocument)]

/-- The document of a table. -/
def Table.toDocument (t : Table) : Document :=
  .record [("name", .ofText t.name), ("alias", .ofText t.aliasName)]

/-- The document of a join kind. -/
def JoinKind.toDocument : JoinKind → Document
  | .inner => .ofText "Inner"
  | .leftOuter => .ofText "LeftOuter"

/-- The document of a join with the source of the given document. -/
def joinDocument (kind : JoinKind) (source : Document) (on : List Condition) : Document :=
  .record [
    ("join_type", kind.toDocument), ("source", source),
    ("on", .list (on.map Condition.toDocument))]

mutual

/-- The document of a source. -/
def Source.toDocument : Source → Document
  | .table t => .record [("Table", t.toDocument)]
  | .nested tree =>
    .record [("Nested",
      .record [("base", tree.rootDocument), ("steps", .list tree.joinDocuments)])]

/-- The document of the source that a tree starts with. -/
def JoinTree.rootDocument : JoinTree → Document
  | .base s => s.toDocument
  | .join l _ _ _ => l.rootDocument

/-- The documents of the joins of a tree. -/
def JoinTree.joinDocuments : JoinTree → List Document
  | .base _ => []
  | .join l kind r on => l.joinDocuments ++ [joinDocument kind r.toDocument on]

end

/-- The document of a tree. -/
def JoinTree.toDocument (t : JoinTree) : Document :=
  .record [("base", t.rootDocument), ("steps", .list t.joinDocuments)]

/-- The document of a direction. -/
def Direction.toDocument : Direction → Document
  | .ascending => .ofText "Asc"
  | .descending => .ofText "Desc"

/-- The document of an ordering. -/
def OrderBy.toDocument (o : OrderBy) : Document :=
  .record [("column", o.column.toDocument), ("direction", o.direction.toDocument)]

/-- The document of a statement. -/
def Statement.toDocument (s : Statement) : Document :=
  .record [
    ("select", .list (s.select.map Column.toDocument)),
    ("from", s.tables.toDocument),
    ("filters", .list (s.conditions.map Condition.toDocument)),
    ("order_by", (s.ordering.map OrderBy.toDocument).getD .null)]

/-- The fields of a record of which only the named ones count, or of a list of all of them. -/
def fieldsOf? (known : List String) (d : Document) : Option (List (String × Document)) :=
  Dialect.json.record? known known.length d

/-- A field that may not be missing. -/
def needed? {α : Type} (name : String) (read : Document → Option α)
    (fields : List (String × Document)) : Option α := Dialect.field? name none read fields

/-- The column of a document. -/
def Column.ofDocument? (d : Document) : Option Column := do
  let fields ← fieldsOf? ["table_alias", "column"] d
  return ⟨← needed? "table_alias" Document.text? fields, ← needed? "column" Document.text? fields⟩

/-- The operand of a document. -/
def Operand.ofDocument? : Document → Option Operand
  | .table [(k, v)] =>
    match k.text? with
    | some "Column" => (Column.ofDocument? v).map .column
    | some "Literal" => v.text?.map .literal
    | _ => none
  | _ => none

/-- The condition of a document. -/
def Condition.ofDocument? (d : Document) : Option Condition := do
  let fields ← fieldsOf? ["left", "operator", "right"] d
  return ⟨← needed? "left" Operand.ofDocument? fields, ← needed? "operator" Document.text? fields,
    ← needed? "right" Operand.ofDocument? fields⟩

/-- The conditions of a document. -/
def conditionsOf? : Document → Option (List Condition)
  | .list items => items.mapM Condition.ofDocument?
  | _ => none

/-- The table of a document. -/
def Table.ofDocument? (d : Document) : Option Table := do
  let fields ← fieldsOf? ["name", "alias"] d
  return ⟨← needed? "name" Document.text? fields, ← needed? "alias" Document.text? fields⟩

/-- The word of a document: a text, or a table with the text as its only key and nothing as value. -/
def word? : Document → Option String
  | .table [(k, .scalar _ .null)] => k.text?
  | d => d.text?

/-- The join kind of a document. -/
def JoinKind.ofDocument? (d : Document) : Option JoinKind :=
  match word? d with
  | some "Inner" => some .inner
  | some "LeftOuter" => some .leftOuter
  | _ => none

/-- The value, if there is none yet. -/
def fill? {α : Type} (old : Option α) (new : Option α) : Option α :=
  if old.isSome then none else new

mutual

/-- The source of a document. -/
def readSource : Document → Option Source
  | .table [(k, v)] =>
    match k.text? with
    | some "Table" => (Table.ofDocument? v).map .table
    | some "Nested" => (readTree v).map .nested
    | _ => none
  | _ => none

/-- The tree of a document. -/
def readTree : Document → Option JoinTree
  | .table entries => readTreeEntries none none entries
  | .list [b, s] => do return .ofJoins (← readSource b) (← readJoins s)
  | _ => none

/-- The tree of the entries of a table, with the fields that were read before. -/
def readTreeEntries (root : Option Source)
    (joins : Option (List (JoinKind × Source × List Condition))) :
    List (Document × Document) → Option JoinTree
  | [] => do return .ofJoins (← root) (← joins)
  | (k, v) :: es =>
    match k.text? with
    | some "base" => do
      let s ← fill? root (readSource v)
      readTreeEntries (some s) joins es
    | some "steps" => do
      let js ← fill? joins (readJoins v)
      readTreeEntries root (some js) es
    | some _ => readTreeEntries root joins es
    | none => none

/-- The joins of a document. -/
def readJoins : Document → Option (List (JoinKind × Source × List Condition))
  | .list items => readEachJoin items
  | _ => none

/-- The joins of some items. -/
def readEachJoin : List Document → Option (List (JoinKind × Source × List Condition))
  | [] => some []
  | d :: ds => do
    let j ← readJoin d
    let js ← readEachJoin ds
    return j :: js

/-- The join of a document. -/
def readJoin : Document → Option (JoinKind × Source × List Condition)
  | .table entries => readJoinEntries none none none entries
  | .list [k, s, on] => do return (← JoinKind.ofDocument? k, ← readSource s, ← conditionsOf? on)
  | _ => none

/-- The join of the entries of a table, with the fields that were read before. -/
def readJoinEntries (kind : Option JoinKind) (source : Option Source) (on : Option (List Condition)) :
    List (Document × Document) → Option (JoinKind × Source × List Condition)
  | [] => do return (← kind, ← source, ← on)
  | (k, v) :: es =>
    match k.text? with
    | some "join_type" => do
      let j ← fill? kind (JoinKind.ofDocument? v)
      readJoinEntries (some j) source on es
    | some "source" => do
      let s ← fill? source (readSource v)
      readJoinEntries kind (some s) on es
    | some "on" => do
      let cs ← fill? on (conditionsOf? v)
      readJoinEntries kind source (some cs) es
    | some _ => readJoinEntries kind source on es
    | none => none

end

/-- The tree of a document. -/
def JoinTree.ofDocument? (d : Document) : Option JoinTree := readTree d

/-- The direction of a document. -/
def Direction.ofDocument? (d : Document) : Option Direction :=
  match word? d with
  | some "Asc" => some .ascending
  | some "Desc" => some .descending
  | _ => none

/-- The ordering of a document. -/
def OrderBy.ofDocument? (d : Document) : Option OrderBy := do
  let fields ← fieldsOf? ["column", "direction"] d
  return ⟨← needed? "column" Column.ofDocument? fields,
    ← needed? "direction" Direction.ofDocument? fields⟩

/-- The ordering of a document, or nothing. -/
def orderingOf? : Document → Option (Option OrderBy)
  | .scalar _ .null => some none
  | d => (OrderBy.ofDocument? d).map some

/-- The columns of a document. -/
def columnsOf? : Document → Option (List Column)
  | .list items => items.mapM Column.ofDocument?
  | _ => none

/-- The statement of a document. -/
def Statement.ofDocument? (d : Document) : Option Statement := do
  let fields ← fieldsOf? ["select", "from", "filters", "order_by"] d
  return {
    select := ← needed? "select" columnsOf? fields
    tables := ← needed? "from" JoinTree.ofDocument? fields
    conditions := ← needed? "filters" conditionsOf? fields
    ordering := ← Dialect.field? "order_by" (some none) orderingOf? fields }

end Sql
end TripleSql
