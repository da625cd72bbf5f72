/-
# Fragments

A graph pattern becomes a fragment: the tables of its triple patterns, joined one after the other.

The first triple pattern comes first. After it comes, each time, the earliest one left that shares a variable with
what is bound; `arrange` gives the order and what is never reached. At each join the conditions are, each once:

1. for the subject and then the object: a constant equals its column; a variable's column equals the column that the
   variable is bound to, and the first column that it has in the fragment, where these are other columns,
2. the filters that are ready,
3. the constants that wait under the aliases of the joined columns.

A condition that reads tables of the fragment alone stands at the join. One that reads another table, because a
variable was bound before the fragment, goes to `outer` and stands where the fragment is joined to that table. The
filters of a fragment of one table are kept in `leftover`.

Source: specification, 4.3; `JoinUnit` with `seed`, `push_pattern`, `add_join_vars`, `local_column`, `declaration` and
`alias`, `compile_graph_pattern` and `disconnected`.
-/

import TripleSql.Compile.Pending
import TripleSql.Compile.Scope

namespace TripleSql
namespace Compile

open Pattern Sql

/-- The joined tables of a graph pattern, the column of each variable in each of them, and the conditions that do not
stand at a join. -/
structure Fragment where
  tree : JoinTree
  columns : List (String × Column)
  outer : List Condition := []
  leftover : List Condition := []
deriving DecidableEq, Repr

instance : LawfulBEq (String × Column) := inferInstance

/-- The list with the entries of another one that it does not have. -/
def addColumns (cs ds : List (String × Column)) : List (String × Column) :=
  ds.foldl (fun cs d => if d ∈ cs then cs else cs ++ [d]) cs

namespace Fragment

/-- A table alone. -/
def single (p : Placement) : Fragment := { tree := .base (.table p.table), columns := p.columns }

/-- The first column of a variable in the fragment. -/
def column? (f : Fragment) (v : String) : Option Column := f.columns.lookup v

/-- The text of the fragment as a source. -/
def text (f : Fragment) : String := (Source.nested f.tree).text

/-- What the fragment is called by: the alias of a lone table, and the text otherwise. -/
def identity (f : Fragment) : String :=
  match f.tree.single? with
  | some t => t.aliasName
  | none => f.text

/-- The conditions on a node that joins the fragment. -/
def slotConditions (b : Bindings) (f : Fragment) (slot : Node × Column) : List Condition :=
  match slot.1 with
  | .const x => [Condition.columnIs slot.2 x]
  | .var v =>
    (((b.column? v).toList ++ (f.column? v).toList).filter (· ≠ slot.2)).map
      (Condition.columnsEqual slot.2)

end Fragment

/-- A fragment, and the filters of its graph pattern that it does not hold yet. -/
structure Growth where
  fragment : Fragment
  pending : Pending
deriving DecidableEq, Repr

namespace Growth

/-- Joins a placed triple pattern to the fragment. -/
def join (p : Placement) (g : Growth) (s : Scope) : Growth × Scope :=
  let f := g.fragment
  let columns := addColumns f.columns p.columns
  let filters := g.pending.take s.bindings (columns.map (·.1))
  let constants := s.constants.takeAll (columns.map (·.2.tableAlias))
  let conditions := Condition.distinct
    (p.slots.flatMap (f.slotConditions s.bindings) ++ filters.1 ++ constants.1)
  let aliases := f.tree.aliases ++ [p.table.aliasName]
  ({ fragment :=
      { tree := .join f.tree .inner (.table p.table) (conditions.filter (·.isScopedTo aliases))
        columns
        outer := Condition.pushAll f.outer (conditions.filter (!·.isScopedTo aliases))
        leftover := f.leftover }
     pending := filters.2 },
    { s with constants := constants.2 })

/-- Places triple patterns and joins them, one after the other. -/
def joinEach (cat : Catalog) (g : Growth) : List Triple → Step Growth
  | [] => pure g
  | t :: ts => do
    let p ← place cat t
    let g ← modifyGet (g.join p)
    joinEach cat g ts

/-- The fragment with its filters, if all have a place; `first` is the placement of the first triple pattern. -/
def finish (first : Placement) (b : Bindings) (g : Growth) : Except Error Fragment :=
  if g.pending.isEmpty then .ok g.fragment
  else match g.fragment.tree with
    | .join .. => .error (.neverBound g.pending.filters)
    | .base _ => do
      let leftover ← g.pending.conditions fun v => first.column? v <|> b.column? v
      return { g.fragment with leftover }

end Growth

/-- The triple pattern shares a variable with the known ones. -/
def reaches (known : List String) (t : Triple) : Bool := t.vars.any known.contains

/-- The triple patterns in the order in which they are joined to known variables, and those that are never
reached. -/
def arrange (known : List String) (ts : List Triple) : List Triple × List Triple :=
  match _h : ts.find? (reaches known) with
  | none => ([], ts)
  | some t =>
    let r := arrange (known ++ t.vars) (ts.eraseP (reaches known))
    (t :: r.1, r.2)
termination_by ts.length
decreasing_by
  rw [List.length_eraseP_of_mem (List.mem_of_find?_eq_some _h) (List.find?_some _h)]
  exact Nat.sub_lt (List.length_pos_of_mem (List.mem_of_find?_eq_some _h)) Nat.one_pos

/-- The fragment of a graph pattern. -/
def fragment (cat : Catalog) (gp : GraphPattern) : Step Fragment :=
  match gp.triples with
  | [] => throw .emptyPattern
  | t :: ts => do
    let pending ← MonadExcept.ofExcept (Pending.ofFilters gp.filters)
    let first ← place cat t
    let (reached, stranded) := arrange (← get).bindings.vars ts
    let g ← Growth.joinEach cat ⟨.single first, pending⟩ reached
    let bindings := (← get).bindings
    if stranded = [] then MonadExcept.ofExcept (g.finish first bindings)
    else throw (.unreachable stranded bindings.names)

end Compile
end TripleSql
