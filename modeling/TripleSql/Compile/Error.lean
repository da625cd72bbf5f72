/-
# Why a query does not compile

Every cause lies in the query or in the catalog: the same query on the same catalog fails again in the same way.
Two causes say that a part of the query is not connected to the rest, one for triple patterns inside a graph
pattern and one for a whole element; two say that a filter cannot be placed.

Source: specification, 7 and 11; `QueryCompileError` and `from_catalog_with_context`.
-/

import TripleSql.Catalog.Error
import TripleSql.Pattern.Basic
import TripleSql.Pattern.Comparison
import TripleSql.Sql.Text

namespace TripleSql
namespace Compile

open Pattern

/-- Why a query does not compile. -/
inductive Error where
  /-- An element is a nested query. -/
  | nestedQuery (role : Role)
  /-- The predicate of a triple pattern is a variable. -/
  | variablePredicate (triple : Triple)
  /-- The predicate of a triple pattern has no table. -/
  | unmappedPredicate (triple : Triple)
  /-- A filter has no variable. -/
  | constantFilter (filter : Filter)
  /-- The operator of a filter is no comparison. -/
  | unknownOperator (filter : Filter)
  /-- A graph pattern has no triple pattern. -/
  | emptyPattern
  /-- A query requires no element. -/
  | emptyQuery
  /-- No triple pattern that is left shares a variable with what is bound. -/
  | unreachable (remaining : List Triple) (bound : List String)
  /-- No condition connects an element to the tables before it. -/
  | detached (element : Sql.JoinTree) (bound : List String)
  /-- The variables of the filters are never bound together. -/
  | neverBound (filters : List Filter)
  /-- A variable of the filter of a single triple pattern is bound nowhere. -/
  | unboundVariable (filter : Filter)
  /-- A target is bound by no element. -/
  | unboundTarget (name : String)
  /-- The ordering is by a variable that is no target. -/
  | orderOutsideTargets (name : String) (targets : List String)
  /-- There are no targets. -/
  | noTargets
deriving DecidableEq, Repr

/-- Variable names as they are listed in messages. -/
def listed (names : List String) : String := ", ".intercalate (names.map ("?" ++ ·))

namespace Error

/-- The message when parts are left that nothing connects. -/
def remainingMessage (remaining : String) (bound : List String) : String :=
  "Cannot bind all query steps, remaining: [" ++ remaining ++ "], variables already bound: [" ++
    listed bound ++ "]"

/-- The message when a filter has no place. -/
def filterMessage (filter reason : String) : String :=
  "Filter `" ++ filter ++ "` is unbound: " ++ reason

/-- The message of an error. -/
def message : Error → String
  | nestedQuery role =>
    "Unsupported construct: " ++ role.text ++ " element is a " ++ (Element.query [] []).kind ++
      "; sub-queries are not supported"
  | variablePredicate t =>
    "Predicate must be a constant, found variable `" ++ t.predicate.text ++ "` in pattern `" ++
      t.text ++ "`"
  | unmappedPredicate t =>
    "Table lookup failed: " ++
      (Catalog.LookupError.unmapped
        (t.predicate.text ++ "\n  Context: In pattern: " ++ t.text)).message
  | constantFilter f => "Filter `" ++ f.text ++ "` must reference at least one variable"
  | unknownOperator f =>
    "Unsupported operator `" ++ f.operator ++ "` in filter `" ++ f.text ++ "` (allowed: " ++
      ", ".intercalate (Comparison.all.map Comparison.text) ++ ")"
  | emptyPattern => "Graph pattern contains no triple patterns"
  | emptyQuery => "Query contains no required graph pattern"
  | unreachable remaining bound =>
    remainingMessage ("; ".intercalate (remaining.map Triple.text)) bound
  | detached element bound => remainingMessage (Sql.Source.nested element).text bound
  | neverBound filters =>
    filterMessage (", ".intercalate (filters.map Filter.text))
      "its variables are never jointly bound by the graph pattern"
  | unboundVariable f =>
    filterMessage f.text ("variable(s) " ++ listed f.vars ++ " cannot be found in the graph pattern")
  | unboundTarget name =>
    "Target variable `" ++ name ++ "` is not bound by any pattern of the query"
  | orderOutsideTargets name targets =>
    "Cannot order by `" ++ name ++ "` since it is not in the target list [" ++
      ", ".intercalate targets ++ "]"
  | noTargets => "No target variables have been set"

end Error
end Compile
end TripleSql
