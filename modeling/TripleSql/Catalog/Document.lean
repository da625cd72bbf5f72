/-
# Catalogs as documents

| field | value | if missing |
| --- | --- | --- |
| `name` | a text or nothing | nothing |
| `subject_column`, `object_column` | a text | `s`, `o` |
| `map_table`, `so_table` | a text or nothing | nothing |
| `predicates` | a table of texts by predicate; the last entry of a predicate counts | empty |

Source: specification, 12; the serialized form of `CatalogConfig`, and `from_yaml_str`.
-/

import TripleSql.Catalog.Basic
import TripleSql.Document.Dialect
import TripleSql.Document.Yaml.Content

namespace TripleSql
namespace Catalog

/-- The names of the fields. -/
def fieldNames : List String :=
  ["name", "subject_column", "object_column", "map_table", "so_table", "predicates"]

/-- The tables of a table of texts. -/
def Predicates.ofDocument? (d : Document) : Option Predicates := do
  let entries ← Dialect.yaml.keyed? (← Dialect.yaml.entries? d)
  return .ofPairs (← entries.mapM fun e => (Dialect.yaml.text? e.2).map (e.1, ·))

/-- The catalog that a document holds. -/
def ofDocument? (d : Document) : Option Catalog := do
  let fields ← Dialect.yaml.fields? fieldNames d
  return {
    name := ← Dialect.field? "name" (some none) Dialect.yaml.optionalText? fields
    subjectColumn := ← Dialect.field? "subject_column" (some "s") Dialect.yaml.text? fields
    objectColumn := ← Dialect.field? "object_column" (some "o") Dialect.yaml.text? fields
    mapTable := ← Dialect.field? "map_table" (some none) Dialect.yaml.optionalText? fields
    soTable := ← Dialect.field? "so_table" (some none) Dialect.yaml.optionalText? fields
    predicates := ← Dialect.field? "predicates" (some .empty) Predicates.ofDocument? fields }

/-- The document of a catalog. -/
def toDocument (c : Catalog) : Document :=
  .record [
    ("name", .ofText? c.name),
    ("subject_column", .ofText c.subjectColumn),
    ("object_column", .ofText c.objectColumn),
    ("map_table", .ofText? c.mapTable),
    ("so_table", .ofText? c.soTable),
    ("predicates", .record (c.predicates.entries.map fun e => (e.1, .ofText e.2)))]

/-- The catalog that a text of YAML holds. -/
def ofYaml (s : String) : Except Error Catalog :=
  match (Document.Yaml.parse? s).bind ofDocument? with
  | some c => .ok c
  | none => .error .malformed

end Catalog
end TripleSql
