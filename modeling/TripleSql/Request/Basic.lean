/-
# Requests

A request asks for rows: a query, the targets that make up a row, and perhaps an ordering by one of them. As a document it
has these fields:

| field | value | if missing |
| --- | --- | --- |
| `targets` | a list of variable names | empty |
| `order_by` | a record of `variable` and `descending` (`false` if missing), or nothing | nothing |
| `required`, `optional` | lists of elements | empty |

An element is a table of one entry, `graph_pattern` with a record of `triples` and `filters` (empty if missing), or
`graph_query` with a record of `required` and `optional`. A triple pattern is a list of three nodes, and a filter one of a
node, an operator and a node.

Source: specification, 12; `QueryFile`, `OrderSpec`, and the forms in which they are serialized.
-/

import TripleSql.Document.Basic
import TripleSql.Pattern.Basic

namespace TripleSql

open Pattern

/-- The variable that rows are ordered by. -/
structure OrderRequest where
  variableName : String
  descending : Bool := false
deriving DecidableEq, Repr

/-- A query with its targets and its ordering. -/
structure Request where
  targets : List String := []
  orderBy : Option OrderRequest := none
  query : Query := {}
deriving Repr

namespace Pattern

/-- The document of a triple pattern. -/
def Triple.toDocument (t : Triple) : Document :=
  .ofTexts [t.subject.text, t.predicate.text, t.object.text]

/-- The document of a filter. -/
def Filter.toDocument (f : Filter) : Document := .ofTexts [f.left.text, f.operator, f.right.text]

/-- The document of a graph pattern. -/
def GraphPattern.toDocument (p : GraphPattern) : Document :=
  .record [
    ("triples", .list (p.triples.map Triple.toDocument)),
    ("filters", .list (p.filters.map Filter.toDocument))]

mutual

/-- The document of an element. -/
def Element.toDocument : Element → Document
  | .pattern p => .record [("graph_pattern", p.toDocument)]
  | .query required optional =>
    .record [("graph_query",
      .record [
        ("required", .list (elementDocuments required)),
        ("optional", .list (elementDocuments optional))])]

/-- The documents of elements. -/
def elementDocuments : List Element → List Document
  | [] => []
  | e :: es => e.toDocument :: elementDocuments es

end

end Pattern

namespace Request

/-- The document of an ordering. -/
def orderDocument : Option OrderRequest → Document
  | none => .null
  | some o => .record [("variable", .ofText o.variableName), ("descending", .ofBool o.descending)]

/-- The document of a request. -/
def toDocument (r : Request) : Document :=
  .record [
    ("targets", .ofTexts r.targets),
    ("order_by", orderDocument r.orderBy),
    ("required", .list (elementDocuments r.query.required)),
    ("optional", .list (elementDocuments r.query.optional))]

end Request
end TripleSql
