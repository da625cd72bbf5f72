/-
# Scopes and placements

What compiling one element leaves for the next: the aliases that are taken, the columns of the variables, and the
constants that wait for a clause. It is kept also when compiling fails on the way.

Placing a triple pattern takes the next alias of its table. Then the subject and after it the object is recorded: a
variable is bound to its column unless it has one, a constant waits under the alias. A pattern that cannot be placed,
because its predicate is a variable or has no table, changes nothing.

Source: specification, 4.2; `BoundPattern` with `join_vars` and `column_of`, `bind_pattern` and `bind_node`.
-/

import TripleSql.Catalog.Alias
import TripleSql.Compile.Bindings
import TripleSql.Compile.Constants
import TripleSql.Compile.Error

namespace TripleSql
namespace Compile

open Pattern Sql

/-- What is known while a query is compiled. -/
structure Scope where
  aliases : Catalog.Aliases := {}
  bindings : Bindings := {}
  constants : Constants := {}
deriving DecidableEq, Repr, Inhabited

/-- A step of compiling: it may fail, and the scope is there in either case. -/
abbrev Step := EStateM Error Scope

/-- A triple pattern on a table of its own. -/
structure Placement where
  triple : Triple
  table : Table
  subject : Column
  object : Column
deriving DecidableEq, Repr

namespace Placement

/-- Subject and object, each with its column. -/
def slots (p : Placement) : List (Node × Column) :=
  [(p.triple.subject, p.subject), (p.triple.object, p.object)]

/-- The variables of the pattern, each with its column. -/
def columns (p : Placement) : List (String × Column) :=
  p.slots.filterMap fun s => s.1.var?.map (·, s.2)

/-- The column of a variable in the pattern, the subject column first. -/
def column? (p : Placement) (v : String) : Option Column := p.columns.lookup v

end Placement

namespace Scope

/-- Records a node that stands on a column. -/
def record (s : Scope) (slot : Node × Column) : Scope :=
  match slot.1 with
  | .var v => { s with bindings := s.bindings.bind v slot.2 }
  | .const x =>
    { s with constants := s.constants.add slot.2.tableAlias (Condition.columnIs slot.2 x) }

end Scope

/-- Puts a triple pattern on the next use of its table and records its nodes. -/
def place (cat : Catalog) (t : Triple) : Step Placement := fun s =>
  match cat.resolve s.aliases t.predicate with
  | .error (.variablePredicate _) => .error (.variablePredicate t) s
  | .error (.unmapped _) => .error (.unmappedPredicate t) s
  | .ok (table, aliases) =>
    let p : Placement :=
      ⟨t, table, ⟨table.aliasName, cat.subjectColumn⟩, ⟨table.aliasName, cat.objectColumn⟩⟩
    .ok p (p.slots.foldl Scope.record { s with aliases })

end Compile
end TripleSql
