/-
# Catalogs

A store keeps one table of two columns for each predicate. A catalog says which table, how the two columns are
called, and names two more tables that only matter when the store is torn down. A catalog is admitted if

* the names of both columns, of every table and of the two further tables are plain names,
* the two columns are different,
* every predicate has a character that is no blank,
* no two predicates share a table.

The conditions are checked in this order, those on predicates entry by entry, and the first one that fails is the
error. A shared table is reported at its second predicate.

Source: specification, 12; `CatalogConfig` with `validate` and `to_table_map`, `check_identifier`, `PredicateTableMap`
with `table_for` and `tables`, and `teardown_statements`.
-/

import TripleSql.Catalog.Error
import TripleSql.Catalog.Predicates
import TripleSql.Sql.Name
import TripleSql.Text.Blank

namespace TripleSql

/-- The tables of a store, one for each predicate, and the names of their columns. -/
structure Catalog where
  name : Option String := none
  subjectColumn : String := "s"
  objectColumn : String := "o"
  mapTable : Option String := none
  soTable : Option String := none
  predicates : Catalog.Predicates := .empty

namespace Catalog

instance : Inhabited Catalog := ⟨{}⟩

/-- The name is a plain one. -/
def requirePlain (place : NamePlace) (name : String) : Except Error Unit :=
  if Sql.isPlain name then .ok () else .error (.notPlain place name)

/-- The name, if there is one, is a plain one. -/
def requirePlain? (place : NamePlace) : Option String → Except Error Unit
  | none => .ok ()
  | some name => requirePlain place name

/-- The predicate that an entry among the given ones has for the table. -/
def owner? (seen : List (String × String)) (table : String) : Option String :=
  (seen.find? (·.2 == table)).map (·.1)

/-- Each entry has a visible predicate, a plain table, and a table of its own among the entries before it. -/
def checkEntries (seen : List (String × String)) : List (String × String) → Except Error Unit
  | [] => .ok ()
  | (predicate, table) :: entries =>
    if Text.isEmptyOrBlank predicate then .error .blankPredicate
    else do
      requirePlain .table table
      match owner? seen table with
      | some first => .error (.sharedTable table first predicate)
      | none => checkEntries (seen ++ [(predicate, table)]) entries

/-- The first condition on catalogs that does not hold, if there is one. -/
def check (c : Catalog) : Except Error Unit := do
  requirePlain .subjectColumn c.subjectColumn
  requirePlain .objectColumn c.objectColumn
  if c.subjectColumn = c.objectColumn then .error (.sameColumns c.subjectColumn)
  requirePlain? .mapTable c.mapTable
  requirePlain? .subjectObjectTable c.soTable
  checkEntries [] c.predicates.entries

/-- The catalog, if it passes the check. -/
def accept (c : Catalog) : Except Error Catalog := do
  c.check
  return c

/-- The table of a predicate. -/
def tableFor (c : Catalog) (predicate : String) : Except LookupError String :=
  match c.predicates.get? predicate with
  | some table => .ok table
  | none => .error (.unmapped predicate)

/-- The statement that drops a table; the name stands in it as it is. -/
def dropTable (table : String) : String := "DROP TABLE " ++ table

/-- The statements that drop the tables of all predicates in their order, then the two further tables. -/
def teardown (c : Catalog) : List String :=
  (c.predicates.tables ++ c.soTable.toList ++ c.mapTable.toList).map dropTable

end Catalog
end TripleSql
