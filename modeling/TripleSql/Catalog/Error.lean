/-
# What can be wrong with a catalog

A name that is no plain name, two columns that are one, a predicate without a visible character, and a table that
serves two predicates are found when a catalog is checked; a file that cannot be read or has the wrong form, before
that. Looking up a predicate fails for a variable and for a predicate without a table.

Source: specification, 7 and 12; `TableCatalogError` and `unmapped_with_context`.
-/

namespace TripleSql
namespace Catalog

/-- The parts of a catalog that hold a name. -/
inductive NamePlace where
  | subjectColumn
  | objectColumn
  | mapTable
  | subjectObjectTable
  | table
deriving DecidableEq, Repr

/-- Why a catalog is refused. -/
inductive Error where
  | unreadable (path cause : String)
  | malformed
  | notPlain (place : NamePlace) (name : String)
  | sameColumns (name : String)
  | blankPredicate
  | sharedTable (table first second : String)
deriving DecidableEq, Repr

/-- Why a predicate has no table. -/
inductive LookupError where
  | variablePredicate (name : String)
  | unmapped (predicate : String)
deriving DecidableEq, Repr

namespace NamePlace

/-- The place in words. -/
def text : NamePlace → String
  | subjectColumn => "subject column"
  | objectColumn => "object column"
  | mapTable => "map table"
  | subjectObjectTable => "subject/object table"
  | table => "table"

end NamePlace

namespace Error

/-- The message of a refused catalog; a file of the wrong form has none of its own. -/
def message? : Error → Option String
  | unreadable path cause => some ("Failed to read catalog file: " ++ path ++ ": " ++ cause)
  | malformed => none
  | notPlain place name =>
    some ("Invalid " ++ place.text ++ " name `" ++ name ++ "` (expected a plain SQL identifier)")
  | sameColumns name =>
    some ("Invalid catalog: subject and object columns must differ (both are `" ++ name ++ "`)")
  | blankPredicate => some "Invalid catalog: predicate keys cannot be empty"
  | sharedTable table first second =>
    some ("Table `" ++ table ++ "` is mapped to both `" ++ first ++ "` and `" ++ second ++ "`")

end Error

namespace LookupError

/-- The message of a failed lookup. -/
def message : LookupError → String
  | variablePredicate name => "Predicate must be a constant, found variable `?" ++ name ++ "`"
  | unmapped predicate => "No table is mapped for predicate `" ++ predicate ++ "`"

end LookupError
end Catalog
end TripleSql
