/-
# Renamings

A renaming gives other names to variables and other values to constants, different ones to different ones (`Renaming`). It
applies to whatever compiling reads, keeps and answers:

| in | renamed | kept |
| --- | --- | --- |
| triple pattern | variables, the constants of subject and object | the constant of the predicate, which the catalog knows |
| filter | variables and constants | the operator |
| condition | literals | columns and the operator |
| bindings, columns of a fragment | variables | columns, and the order of the entries |
| error | what it shows, variables listed in ascending order of their new names | its kind |

All that is asked of a name or of a value is whether it is the same as another one, so each part of compiling commutes
with a renaming. The lemmas here say so of look-ups, variables and conditions.
-/

import TripleSql.Compile.Session
import TripleSql.Proofs.Conditions

namespace TripleSql

/-- Other names for variables and other values for constants, different ones for different ones. -/
structure Renaming where
  var : String → String
  const : String → String
  var_injective : var.Injective
  const_injective : const.Injective

namespace Pattern

/-- The node with a function applied to its name and another one to its value. -/
def Node.map (name value : String → String) : Node → Node
  | var v => var (name v)
  | const x => const (value x)

/-- The node renamed. -/
def Node.rename (r : Renaming) : Node → Node := Node.map r.var r.const

/-- The triple pattern renamed, but for a constant as its predicate. -/
def Triple.rename (r : Renaming) (t : Triple) : Triple :=
  ⟨t.subject.rename r, t.predicate.map r.var id, t.object.rename r⟩

/-- The filter renamed. -/
def Filter.rename (r : Renaming) (f : Filter) : Filter := { f with left := f.left.rename r, right := f.right.rename r }

/-- The graph pattern renamed. -/
def GraphPattern.rename (r : Renaming) (gp : GraphPattern) : GraphPattern :=
  ⟨gp.triples.map (Triple.rename r), gp.filters.map (Filter.rename r)⟩

mutual

/-- The element renamed. -/
def Element.rename (r : Renaming) : Element → Element
  | .pattern gp => .pattern (gp.rename r)
  | .query required optional => .query (renameEach r required) (renameEach r optional)

/-- The elements renamed. -/
def Element.renameEach (r : Renaming) : List Element → List Element
  | [] => []
  | e :: es => e.rename r :: renameEach r es

end

/-- The query renamed. -/
def Query.rename (r : Renaming) (q : Query) : Query :=
  ⟨Element.renameEach r q.required, Element.renameEach r q.optional⟩

end Pattern

namespace Sql

/-- The operand with a function applied to a literal. -/
def Operand.mapLiterals (g : String → String) : Operand → Operand
  | column c => column c
  | literal x => literal (g x)

/-- The condition with a function applied to its literals. -/
def Condition.mapLiterals (g : String → String) (c : Condition) : Condition :=
  { c with left := c.left.mapLiterals g, right := c.right.mapLiterals g }

mutual

/-- The source with a function applied to all literals in it. -/
def Source.mapLiterals (g : String → String) : Source → Source
  | .table t => .table t
  | .nested tree => .nested (tree.mapLiterals g)

/-- The tree with a function applied to all literals in it. -/
def JoinTree.mapLiterals (g : String → String) : JoinTree → JoinTree
  | .base s => .base (s.mapLiterals g)
  | .join l kind r on => .join (l.mapLiterals g) kind (r.mapLiterals g) (on.map (Condition.mapLiterals g))

end

/-- The statement with a function applied to all literals in it. -/
def Statement.mapLiterals (g : String → String) (s : Statement) : Statement :=
  { s with tables := s.tables.mapLiterals g, conditions := s.conditions.map (Condition.mapLiterals g) }

end Sql

open Pattern Sql

/-- Columns under renamed variables. -/
def Renaming.columns (r : Renaming) (cs : List (String × Column)) : List (String × Column) :=
  cs.map fun e => (r.var e.1, e.2)

/-- Variables renamed, in ascending order. -/
def Renaming.names (r : Renaming) (vs : List String) : List String := (vs.map r.var).mergeSort

namespace Compile

/-- The bindings of the renamed variables. -/
def Bindings.rename (r : Renaming) (b : Bindings) : Bindings := ⟨r.columns b.entries⟩

/-- The waiting conditions with renamed constants. -/
def Constants.rename (r : Renaming) (k : Constants) : Constants :=
  ⟨k.entries.map fun e => (e.1, e.2.mapLiterals r.const)⟩

/-- The scope renamed; the aliases stay. -/
def Scope.rename (r : Renaming) (s : Scope) : Scope :=
  { s with bindings := s.bindings.rename r, constants := s.constants.rename r }

/-- The placement of the renamed triple pattern. -/
def Placement.rename (r : Renaming) (p : Placement) : Placement := { p with triple := p.triple.rename r }

/-- The waiting filters renamed. -/
def Pending.rename (r : Renaming) (p : Pending) : Pending := ⟨p.filters.map (Filter.rename r)⟩

/-- The fragment renamed. -/
def Fragment.rename (r : Renaming) (f : Fragment) : Fragment where
  tree := f.tree.mapLiterals r.const
  columns := r.columns f.columns
  outer := f.outer.map (Condition.mapLiterals r.const)
  leftover := f.leftover.map (Condition.mapLiterals r.const)

/-- The fragment and the filters that it does not hold, renamed. -/
def Growth.rename (r : Renaming) (g : Growth) : Growth := ⟨g.fragment.rename r, g.pending.rename r⟩

/-- The assembly renamed. -/
def Assembly.rename (r : Renaming) (a : Assembly) : Assembly where
  tree := a.tree.mapLiterals r.const
  columns := r.columns a.columns
  residual := a.residual.map (Condition.mapLiterals r.const)

/-- The error with all that it shows renamed. -/
def Error.rename (r : Renaming) : Error → Error
  | nestedQuery role => nestedQuery role
  | variablePredicate t => variablePredicate (t.rename r)
  | unmappedPredicate t => unmappedPredicate (t.rename r)
  | constantFilter f => constantFilter (f.rename r)
  | unknownOperator f => unknownOperator (f.rename r)
  | emptyPattern => emptyPattern
  | emptyQuery => emptyQuery
  | unreachable ts bound => unreachable (ts.map (Triple.rename r)) (r.names bound)
  | detached tree bound => detached (tree.mapLiterals r.const) (r.names bound)
  | neverBound fs => neverBound (fs.map (Filter.rename r))
  | unboundVariable f => unboundVariable (f.rename r)
  | unboundTarget v => unboundTarget (r.var v)
  | orderOutsideTargets v targets => orderOutsideTargets (r.var v) (targets.map r.var)
  | noTargets => noTargets

/-- **An error keeps its kind.** -/
theorem Error.ctorIdx_rename (e : Error) (r : Renaming) : (e.rename r).ctorIdx = e.ctorIdx := by
  cases e <;> rfl

end Compile

/-- The answer of a check with its value passed through a function and its error renamed. -/
def Renaming.except {α β : Type} (r : Renaming) (f : α → β) : Except Compile.Error α → Except Compile.Error β
  | .ok a => .ok (f a)
  | .error e => .error (e.rename r)

section Checks

variable {r : Renaming} {α α' β β' : Type} {f : α → α'} {g : β → β'}

/-- Two steps of which the second goes on with renamed values, errors renamed throughout. -/
theorem Renaming.except_bind {x : Except Compile.Error α} {k : α → Except Compile.Error β}
    {k' : α' → Except Compile.Error β'} (hk : ∀ a, k' (f a) = r.except g (k a)) : r.except f x >>= k' = r.except g (x >>= k) := by
  cases x with
  | error e => rfl
  | ok a => exact hk a

/-- A function after a renamed outcome is a renamed outcome after the function. -/
theorem Renaming.except_map {x : Except Compile.Error α} {k : α → β} {k' : α' → β'} (hk : ∀ a, k' (f a) = g (k a)) :
    (r.except f x).map k' = r.except g (x.map k) := by
  cases x with
  | error e => rfl
  | ok a => exact congrArg Except.ok (hk a)

/-- Checks that commute with a renaming do so one after the other. -/
theorem Renaming.except_mapM {k : α → Except Compile.Error β} {k' : α' → Except Compile.Error β'}
    (hk : ∀ a, k' (f a) = r.except g (k a)) (as : List α) :
    (as.map f).mapM k' = r.except (List.map g) (as.mapM k) := by
  induction as with
  | nil => rfl
  | cons a as ih =>
    rw [List.map_cons, List.mapM_cons, List.mapM_cons, hk, ih]
    refine except_bind fun b => except_bind fun bs => rfl

end Checks

section Patterns

variable (r : Renaming)

/-- Elements are renamed one by one. -/
theorem Pattern.Element.renameEach_eq_map (es : List Element) : Element.renameEach r es = es.map (Element.rename r) := by
  induction es with
  | nil => rfl
  | cons e es ih => rw [Element.renameEach, ih, List.map_cons]

/-- A node is a variable under its new name exactly if it was one. -/
@[simp] theorem Pattern.Node.var?_rename (n : Node) : (n.rename r).var? = n.var?.map r.var := by
  cases n <;> rfl

/-- The variables of a triple pattern keep their order: subject, then object. -/
@[simp] theorem Pattern.Triple.vars_rename (t : Triple) : (t.rename r).vars = t.vars.map r.var := by
  obtain ⟨subject, predicate, object⟩ := t
  cases subject <;> cases object <;> rfl

/-- Two variables of a filter stay two, and one stays one. -/
@[simp] theorem Pattern.Filter.vars_rename (f : Filter) : (f.rename r).vars = f.vars.map r.var := by
  obtain ⟨left, operator, right⟩ := f
  cases left <;> cases right <;> try rfl
  next v w =>
    by_cases h : v = w
    · simp [Filter.vars, Filter.rename, Node.rename, Node.map, h]
    · have hr : r.var v ≠ r.var w := fun he => h (r.var_injective he)
      simp [Filter.vars, Filter.rename, Node.rename, Node.map, h, hr]

/-- **A column is found under the new name** where it was under the old one. -/
theorem Renaming.lookup_columns (cs : List (String × Column)) (v : String) :
    (r.columns cs).lookup (r.var v) = cs.lookup v := lookup_map_fst r.var_injective cs v

/-- Entries of a list of columns stay different. -/
theorem Renaming.columns_injective : Function.Injective fun e : String × Column => (r.var e.1, e.2) := fun _ _ h =>
  Prod.ext (r.var_injective (Prod.mk.inj h).1) (Prod.mk.inj h).2

/-- Sorting before renaming does not show after it. -/
theorem Renaming.names_mergeSort (vs : List String) : r.names vs.mergeSort = (vs.map r.var).mergeSort := by
  have hsorted : ∀ vs : List String, vs.mergeSort.Pairwise fun v w => decide (v ≤ w) = true :=
    List.pairwise_mergeSort (fun u v w => namesLe_trans (u, ()) (v, ()) (w, ()))
      fun v w => namesLe_total (v, ()) (w, ())
  refine List.Perm.eq_of_pairwise ?_ (hsorted _) (hsorted _) ?_
  · exact fun a b _ _ h₁ h₂ => String.le_antisymm (of_decide_eq_true h₁) (of_decide_eq_true h₂)
  · exact (List.mergeSort_perm _ _).trans (((List.mergeSort_perm vs _).map r.var).trans (List.mergeSort_perm _ _).symm)

end Patterns

namespace Sql

section Literals

variable {g : String → String}

/-- Different operands stay different if different values do. -/
theorem Operand.mapLiterals_injective (hg : g.Injective) : (Operand.mapLiterals g).Injective := by
  intro a b h
  match a, b, h with
  | .column _, .column _, h => exact h
  | .literal _, .literal _, h => exact congrArg literal (hg (literal.inj h))

/-- Different conditions stay different if different values do. -/
theorem Condition.mapLiterals_injective (hg : g.Injective) : (Condition.mapLiterals g).Injective := by
  intro c d h
  obtain ⟨hl, ho, hr⟩ := Condition.mk.inj h
  obtain ⟨cl, co, cr⟩ := c
  obtain ⟨dl, do', dr⟩ := d
  exact Condition.mk.injEq .. ▸ ⟨Operand.mapLiterals_injective hg hl, ho, Operand.mapLiterals_injective hg hr⟩

namespace Condition

/-- Conditions are equivalent after their values changed exactly if they were before. -/
theorem isEquivalent_mapLiterals (hg : g.Injective) (c d : Condition) :
    (c.mapLiterals g).isEquivalent (d.mapLiterals g) = c.isEquivalent d := by
  rw [Bool.eq_iff_iff, isEquivalent_iff, isEquivalent_iff, (mapLiterals_injective hg).eq_iff]
  simp only [mapLiterals, (Operand.mapLiterals_injective hg).eq_iff]

/-- A condition is new to a list after the values changed exactly if it was before. -/
theorem map_push (hg : g.Injective) (cs : List Condition) (c : Condition) :
    push (cs.map (mapLiterals g)) (c.mapLiterals g) = (push cs c).map (mapLiterals g) := by
  have hany : (cs.map (mapLiterals g)).any (·.isEquivalent (c.mapLiterals g)) = cs.any (·.isEquivalent c) := by
    simp only [List.any_map, Function.comp_def, isEquivalent_mapLiterals hg]
  unfold push
  rw [hany]
  split
  · rfl
  · rw [List.map_append, List.map_singleton]

/-- **Which conditions are left out as equivalent** does not depend on the values of constants. -/
theorem map_pushAll (hg : g.Injective) (cs ds : List Condition) :
    pushAll (cs.map (mapLiterals g)) (ds.map (mapLiterals g)) = (pushAll cs ds).map (mapLiterals g) := by
  induction ds generalizing cs with
  | nil => rfl
  | cons d ds ih =>
    change pushAll (push (cs.map (mapLiterals g)) (d.mapLiterals g)) (ds.map (mapLiterals g)) = _
    rw [map_push hg, ih]
    rfl

/-- The conditions that are kept of equivalent ones are the same. -/
theorem map_distinct (hg : g.Injective) (cs : List Condition) :
    distinct (cs.map (mapLiterals g)) = (distinct cs).map (mapLiterals g) := map_pushAll hg [] cs

/-- A condition reads the same tables. -/
@[simp] theorem aliases_mapLiterals (c : Condition) : (c.mapLiterals g).aliases = c.aliases := by
  have halias : ∀ o : Operand, (o.mapLiterals g).alias? = o.alias? := fun o => by cases o <;> rfl
  simp [aliases, mapLiterals, List.filterMap_cons, halias]

/-- A condition has the same scope. -/
@[simp] theorem isScopedTo_mapLiterals (c : Condition) (as : List String) :
    (c.mapLiterals g).isScopedTo as = c.isScopedTo as := by
  rw [isScopedTo, aliases_mapLiterals, isScopedTo]

end Condition

mutual

/-- The tables of a source do not depend on literals. -/
theorem Source.tables_mapLiterals : (s : Source) → (s.mapLiterals g).tables = s.tables
  | .table _ => rfl
  | .nested t => by rw [Source.mapLiterals, Source.tables, Source.tables, JoinTree.tables_mapLiterals t]

/-- The tables of a tree do not depend on literals. -/
theorem JoinTree.tables_mapLiterals : (t : JoinTree) → (t.mapLiterals g).tables = t.tables
  | .base s => by rw [JoinTree.mapLiterals, JoinTree.tables, JoinTree.tables, Source.tables_mapLiterals s]
  | .join l _ r _ => by
    rw [JoinTree.mapLiterals, JoinTree.tables, JoinTree.tables, JoinTree.tables_mapLiterals l,
      Source.tables_mapLiterals r]

end

/-- The tables of a tree, and so their aliases, stay. -/
@[simp] theorem JoinTree.aliases_mapLiterals (t : JoinTree) : (t.mapLiterals g).aliases = t.aliases :=
  congrArg (List.map _) (JoinTree.tables_mapLiterals t)

end Literals

end Sql
end TripleSql
