/-
# Catalog files

A catalog file holds YAML, whatever its name is.

Source: specification, 12; `from_yaml_file` of `CatalogConfig`, and `to_table_map` after it.
-/

import TripleSql.Catalog.Document
import TripleSql.File

namespace TripleSql
namespace Catalog

/-- The catalog of a file, before it is checked. -/
def ofFile (path : String) : Except File.Fault String → Except Error Catalog
  | .ok text => ofYaml text
  | .error fault => .error (.unreadable path fault.message)

/-- The catalog of a file, if it passes the check. -/
def load (path : String) (content : Except File.Fault String) : Except Error Catalog := do
  let c ← ofFile path content
  c.accept

end Catalog
end TripleSql
