/-
# The statement of a query

The elements of a query are joined in order, the required ones by inner joins, then the optional ones by left outer
joins. The first fragment stands flat, every other one is nested.

A fragment is joined where a variable of it has, among the joined tables, the column that it is bound to by the
required elements, and where conditions that it could not hold itself ask for it. Without any of these it is detached
and the query does not compile. Conditions that come from one element only are placed as follows:

| condition | required element | optional element |
| --- | --- | --- |
| constant that no join inside the fragment took | `WHERE` | `ON` of the element |
| filter of a lone triple pattern | `WHERE` | `ON` of the element |
| condition on a table outside the fragment | `ON` of the element, `WHERE` for the first one | `ON` of the element |

An optional element sees the bindings of the required elements and not those of other optional elements. A target is
the column of its first binding, those by required elements first.

Source: specification, 4.5; `RunningJoin` with `start` and `attach`, `graph_pattern_of`, and `build_statement`.
-/

import TripleSql.Compile.Fragment

namespace TripleSql
namespace Compile

open Pattern Sql

/-- The fragments joined so far, the column of each variable in each of their tables, and conditions for `WHERE`. -/
structure Assembly where
  tree : JoinTree
  columns : List (String × Column)
  residual : List Condition
deriving DecidableEq, Repr

namespace Assembly

/-- The first fragment, flat. -/
def start (f : Fragment) : Assembly :=
  ⟨f.tree, f.columns, Condition.distinct (f.outer ++ f.leftover)⟩

/-- The equalities between the columns of the fragment and the columns, among the joined ones, that its variables are
bound to. -/
def links (a : Assembly) (f : Fragment) (b : Bindings) : List Condition :=
  f.columns.filterMap fun (v, c) =>
    match b.column? v with
    | some d => if (v, d) ∈ a.columns ∧ d ≠ c then some (Condition.columnsEqual d c) else none
    | none => none

/-- The conditions that connect the fragment to the tables before it. -/
def connections (a : Assembly) (f : Fragment) (b : Bindings) : List Condition :=
  Condition.distinct (a.links f b ++ f.outer)

/-- The fragment joined on the conditions that connect it and some more. -/
def attach (kind : JoinKind) (more : List Condition) (f : Fragment) (b : Bindings) (a : Assembly) :
    Except Error Assembly :=
  let on := a.connections f b
  if on = [] then .error (.detached f.tree b.names)
  else .ok
    { tree := .join a.tree kind (.nested f.tree) (Condition.pushAll on more)
      columns := addColumns a.columns f.columns
      residual := a.residual }

/-- A required fragment joined; its own filters are conditions of the statement. -/
def require (f : Fragment) (b : Bindings) (a : Assembly) : Except Error Assembly :=
  ({ a with residual := Condition.pushAll a.residual f.leftover }).attach .inner [] f b

/-- An optional fragment joined on its connections, its constants and its own filters. -/
def allow (f : Fragment) (constants : List Condition) (b : Bindings) (a : Assembly) :
    Except Error Assembly :=
  a.attach .leftOuter (constants ++ f.leftover) f b

end Assembly

/-- The graph pattern of an element. -/
def graphPattern (role : Role) : Element → Except Error GraphPattern
  | .pattern gp => .ok gp
  | .query _ _ => .error (.nestedQuery role)

/-- A required element joined to those before it, if there are any. -/
def requireElement (cat : Catalog) (a? : Option Assembly) (e : Element) : Step Assembly := do
  let gp ← MonadExcept.ofExcept (graphPattern .required e)
  let f ← fragment cat gp
  match a? with
  | none => return .start f
  | some a => MonadExcept.ofExcept (a.require f (← get).bindings)

/-- The required elements joined one after the other. -/
def requireEach (cat : Catalog) (a? : Option Assembly) : List Element → Step (Option Assembly)
  | [] => pure a?
  | e :: es => do
    let a ← requireElement cat a? e
    requireEach cat (some a) es

/-- An optional element joined to an assembly. The scope is left with the bindings that it had; the second value are
the bindings within the element. -/
def allowElement (cat : Catalog) (a : Assembly) (e : Element) : Step (Assembly × Bindings) := do
  let gp ← MonadExcept.ofExcept (graphPattern .optional e)
  let required := (← get).bindings
  let f ← fragment cat gp
  let own := (← get).bindings
  let constants ← modifyGet fun s =>
    let r := s.constants.takeAll f.tree.aliases
    (r.1, { s with bindings := required, constants := r.2 })
  let a ← MonadExcept.ofExcept (a.allow f constants required)
  return (a, own)

/-- The optional elements joined one after the other. The second value are the bindings of all elements. -/
def allowEach (cat : Catalog) (a : Assembly) (all : Bindings) :
    List Element → Step (Assembly × Bindings)
  | [] => pure (a, all)
  | e :: es => do
    let (a, own) ← allowElement cat a e
    allowEach cat a (all.bindAll own.entries) es

/-- The column of a target. -/
def targetColumn (all : Bindings) (target : String) : Except Error Column :=
  match all.column? target with
  | some c => .ok c
  | none => .error (.unboundTarget target)

/-- The column of the ordering. -/
def orderColumn (all : Bindings) : Option (String × Direction) → Except Error (Option OrderBy)
  | none => .ok none
  | some (target, direction) => (targetColumn all target).map fun c => some ⟨c, direction⟩

/-- The statement of a query whose rows are made of the targets. -/
def statement (cat : Catalog) (q : Query) (targets : List String)
    (ordering : Option (String × Direction)) : Step Statement := do
  match ← requireEach cat none q.required with
  | none => throw .emptyQuery
  | some a =>
    let (a, all) ← allowEach cat a (← get).bindings q.optional
    let select ← MonadExcept.ofExcept (targets.mapM (targetColumn all))
    let ordering ← MonadExcept.ofExcept (orderColumn all ordering)
    let conditions := Condition.pushAll (← get).constants.conditions a.residual
    return { select, tables := a.tree, conditions, ordering }

end Compile
end TripleSql
