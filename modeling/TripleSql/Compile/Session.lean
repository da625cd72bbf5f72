/-
# Sessions

A session compiles one query over one catalog as often as it is asked. It holds the targets, the ordering, and the
aliases that the last build took; a build starts with no alias taken, so what was built before does not show. New
targets discard the ordering, and an ordering by a variable that is no target is refused and changes nothing.

Source: specification, 4.5; `GraphQueryCompiler` with `set_targets`, `order_by`, `build_statement` and `compile`.
-/

import TripleSql.Compile.Assembly

namespace TripleSql
namespace Compile

open Pattern Sql

/-- A query over a catalog, with what was asked for so far. -/
structure Session where
  catalog : Catalog
  query : Query
  targets : List String := []
  ordering : Option (String × Direction) := none
  aliases : Catalog.Aliases := {}

namespace Session

/-- Result rows are made of the targets, in no particular order. -/
def setTargets (s : Session) (targets : List String) : Session :=
  { s with targets, ordering := none }

/-- Result rows are ordered by a target. -/
def orderBy (s : Session) (target : String) (direction : Direction) : Except Error Session :=
  if target ∈ s.targets then .ok { s with ordering := some (target, direction) }
  else .error (.orderOutsideTargets target s.targets)

/-- The statement that the session asks for, and the session after building it. -/
def build (s : Session) : Except Error Statement × Session :=
  if s.targets = [] then (.error .noTargets, s)
  else match statement s.catalog s.query s.targets s.ordering {} with
    | .ok r scope => (.ok r, { s with aliases := scope.aliases })
    | .error e scope => (.error e, { s with aliases := scope.aliases })

/-- The text of the statement, as a list of one. -/
def compile (s : Session) : Except Error (List String) × Session :=
  let r := s.build
  (r.1.map fun t => [t.text], r.2)

end Session
end Compile
end TripleSql
