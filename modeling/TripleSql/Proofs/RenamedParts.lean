/-
# Parts of compiling commute with renamings

Compiling binds variables, lets constants wait and takes them, takes the filters that are ready, orders triple patterns,
joins placements and attaches fragments. None of this takes an alias, and each of it gives, for renamed arguments, the
renamed result; where it may fail, the error is renamed as well (`Renaming.except`).

Constants are listed by the aliases under which they wait, and variables in the order in which they were bound, so neither
order depends on a name that is renamed.
-/

import TripleSql.Proofs.Growth
import TripleSql.Proofs.JoinOrder
import TripleSql.Proofs.Renamings

namespace TripleSql
namespace Compile

open Pattern Sql

variable {r : Renaming}

section Bindings

/-- A variable stands for the same column under its new name. -/
@[simp] theorem Bindings.column?_rename (b : Bindings) (v : String) : (b.rename r).column? (r.var v) = b.column? v :=
  r.lookup_columns b.entries v

/-- The bound variables keep their order. -/
@[simp] theorem Bindings.vars_rename (b : Bindings) : (b.rename r).vars = b.vars.map r.var := by
  simp [vars, rename, Renaming.columns, Function.comp_def]

/-- Listed in ascending order, the bound variables are ordered by their new names. -/
theorem Bindings.names_rename (b : Bindings) : (b.rename r).names = r.names b.names := by
  rw [names, vars_rename, names, Renaming.names_mergeSort]

/-- A variable is bound under its new name exactly where it was not bound under the old one. -/
theorem Bindings.bind_rename (b : Bindings) (v : String) (c : Column) :
    (b.rename r).bind (r.var v) c = (b.bind v c).rename r := by
  unfold bind
  rw [column?_rename]
  split
  · rfl
  · simp [rename, Renaming.columns]

/-- So is every variable of a list. -/
theorem Bindings.bindAll_rename (b : Bindings) (es : List (String × Column)) :
    (b.rename r).bindAll (r.columns es) = (b.bindAll es).rename r := by
  induction es generalizing b with
  | nil => rfl
  | cons e es ih =>
    change ((b.rename r).bind (r.var e.1) e.2).bindAll (r.columns es) = _
    rw [bind_rename, ih]
    rfl

end Bindings

namespace Constants

/-- A renamed constant waits where the constant would, or is left out like it. -/
theorem add_rename (k : Constants) (a : String) (c : Condition) :
    (k.rename r).add a (c.mapLiterals r.const) = (k.add a c).rename r := by
  have hany : (k.rename r).entries.any (fun e => e.1 == a && e.2.isEquivalent (c.mapLiterals r.const)) =
      k.entries.any (fun e => e.1 == a && e.2.isEquivalent c) := by
    simp only [rename, List.any_map, Function.comp_def, Condition.isEquivalent_mapLiterals r.const_injective]
  unfold add
  rw [hany]
  split
  · rfl
  · simp [rename]

/-- What waits under an alias waits there with its literals renamed: aliases are no names of the query. -/
theorem under_rename (k : Constants) (a : String) :
    (k.rename r).under a = (k.under a).map (Condition.mapLiterals r.const) := by
  simp [under, rename, List.filter_map, Function.comp_def]

/-- Taking an alias away does not ask what waits under it. -/
theorem without_rename (k : Constants) (a : String) : (k.rename r).without a = (k.without a).rename r := by
  simp [without, rename, List.filter_map, Function.comp_def]

/-- What is taken under some aliases is the same, renamed, and so is what is left. -/
theorem takeAll_rename (k : Constants) (as : List String) :
    (k.rename r).takeAll as = ((k.takeAll as).1.map (Condition.mapLiterals r.const), (k.takeAll as).2.rename r) := by
  induction as generalizing k with
  | nil => rfl
  | cons a as ih => simp only [takeAll, without_rename, under_rename, ih, List.map_append]

/-- **The order of the constants that are left** does not depend on their values. -/
theorem conditions_rename (k : Constants) :
    (k.rename r).conditions = k.conditions.map (Condition.mapLiterals r.const) := by
  have hsort : (k.rename r).entries.mergeSort (fun e f => e.1 ≤ f.1) =
      (k.entries.mergeSort (fun e f => e.1 ≤ f.1)).map fun e => (e.1, e.2.mapLiterals r.const) :=
    (List.map_mergeSort (f := fun e : String × Condition => (e.1, e.2.mapLiterals r.const)) fun _ _ _ _ => rfl).symm
  rw [conditions, hsort, conditions, ← Condition.map_distinct r.const_injective, List.map_map, List.map_map]
  rfl

end Constants

section Placements

variable (p : Placement)

theorem Placement.slots_rename : (p.rename r).slots = p.slots.map fun s => (s.1.rename r, s.2) := rfl

/-- The variables of a placement are renamed, its columns are kept. -/
@[simp] theorem Placement.columns_rename : (p.rename r).columns = r.columns p.columns := by
  simp [columns, slots_rename, Renaming.columns, List.filterMap_map, List.map_filterMap, Function.comp_def]

/-- A variable has the same column of the placement under its new name. -/
@[simp] theorem Placement.column?_rename (v : String) : (p.rename r).column? (r.var v) = p.column? v := by
  rw [column?, columns_rename, r.lookup_columns, column?]

/-- Recording a node binds a variable under its new name, or lets a renamed constant wait. -/
theorem Scope.record_rename (s : Scope) (slot : Node × Column) :
    (s.rename r).record (slot.1.rename r, slot.2) = (s.record slot).rename r := by
  obtain ⟨n, c⟩ := slot
  cases n with
  | var v =>
    change Scope.mk _ ((s.bindings.rename r).bind (r.var v) c) _ = _
    rw [Bindings.bind_rename]
    rfl
  | const x =>
    change Scope.mk _ _ ((s.constants.rename r).add c.tableAlias ((Condition.columnIs c x).mapLiterals r.const)) = _
    rw [Constants.add_rename]
    rfl

/-- Recording subject and object commutes with a renaming, one after the other. -/
theorem Scope.foldl_record_rename (s : Scope) :
    (p.rename r).slots.foldl record (s.rename r) = (p.slots.foldl record s).rename r := by
  rw [Placement.slots_rename, List.foldl_map]
  exact List.foldl_hom (Scope.rename r) fun s slot => record_rename s slot

end Placements

section Filters

variable {column? column?' : String → Option Column} (hc : ∀ v, column?' (r.var v) = column? v)
include hc

/-- A variable becomes the operand that it was, and a constant a renamed literal. -/
theorem operandOf?_rename (n : Node) :
    operandOf? column?' (n.rename r) = (operandOf? column? n).map (Operand.mapLiterals r.const) := by
  cases n with
  | var v =>
    change (column?' (r.var v)).map _ = _
    rw [hc, operandOf?, Option.map_map]
    rfl
  | const x => rfl

/-- A filter has a condition under the new names exactly if it had one, and the two differ in literals. -/
theorem conditionOf?_rename (f : Filter) :
    conditionOf? column?' (f.rename r) = (conditionOf? column? f).map (Condition.mapLiterals r.const) := by
  simp only [conditionOf?, Filter.rename, operandOf?_rename hc]
  cases operandOf? column? f.left <;> cases operandOf? column? f.right <;> rfl

end Filters

namespace Pending

variable (b : Bindings)

/-- A filter is ready at a variable under the new names if it was under the old ones. -/
theorem isReady_rename (v : String) (f : Filter) : isReady (b.rename r) (r.var v) (f.rename r) = isReady b v f := by
  rw [isReady, Filter.vars_rename, contains_map_of_injective r.var_injective, conditionOf?_rename b.column?_rename,
    Option.isSome_map, isReady]

/-- The filters that are ready at one variable are the same, renamed. -/
theorem takeAt_rename (v : String) (p : Pending) : takeAt (b.rename r) (r.var v) (p.rename r) =
    ((takeAt b v p).1.map (Condition.mapLiterals r.const), (takeAt b v p).2.rename r) := by
  simp [takeAt, rename, List.filter_map, Function.comp_def, isReady_rename, List.filterMap_map, List.map_filterMap,
    conditionOf?_rename b.column?_rename]

/-- So are those that are ready at some variables, in the same order. -/
theorem takeEach_rename (vs : List String) (p : Pending) : takeEach (b.rename r) (vs.map r.var) (p.rename r) =
    ((takeEach b vs p).1.map (Condition.mapLiterals r.const), (takeEach b vs p).2.rename r) := by
  induction vs generalizing p with
  | nil => rfl
  | cons v vs ih => simp only [List.map_cons, takeEach, takeAt_rename, ih, List.map_append]

/-- **The filters that are ready stay ready,** in the same order. -/
theorem take_rename (vs : List String) (p : Pending) : take (b.rename r) (vs.map r.var) (p.rename r) =
    ((take b vs p).1.map (Condition.mapLiterals r.const), (take b vs p).2.rename r) := by
  rw [take, takeEach_rename, Condition.map_distinct r.const_injective]
  rfl

end Pending

section Joins

/-- A column is new to a fragment under the new names exactly if it was under the old ones. -/
theorem addColumns_rename (cs ds : List (String × Column)) :
    addColumns (r.columns cs) (r.columns ds) = r.columns (addColumns cs ds) := by
  induction ds generalizing cs with
  | nil => rfl
  | cons d ds ih =>
    have hmem : ((r.var d.1, d.2) ∈ r.columns cs) = (d ∈ cs) :=
      propext (List.mem_map_of_injective (Renaming.columns_injective r))
    have hstep : (if (r.var d.1, d.2) ∈ r.columns cs then r.columns cs else r.columns cs ++ [(r.var d.1, d.2)]) =
        r.columns (if d ∈ cs then cs else cs ++ [d]) := by
      simp only [hmem]
      split
      · rfl
      · simp [Renaming.columns]
    change addColumns (if _ then _ else _) (r.columns ds) = _
    rw [hstep, ih]
    rfl

/-- The first column of a variable is the same. -/
@[simp] theorem Fragment.column?_rename (f : Fragment) (v : String) : (f.rename r).column? (r.var v) = f.column? v :=
  r.lookup_columns f.columns v

/-- A lone table under new names. -/
theorem Fragment.single_rename (p : Placement) : single (p.rename r) = (single p).rename r := by
  rw [single, Placement.columns_rename]
  rfl

/-- A node joins a fragment by the same conditions, with other literals. -/
theorem Fragment.slotConditions_rename (b : Bindings) (f : Fragment) (slot : Node × Column) :
    (f.rename r).slotConditions (b.rename r) (slot.1.rename r, slot.2) =
      (f.slotConditions b slot).map (Condition.mapLiterals r.const) := by
  obtain ⟨n, c⟩ := slot
  cases n with
  | var v =>
    change (((b.rename r).column? (r.var v)).toList ++ ((f.rename r).column? (r.var v)).toList |>.filter _).map _ = _
    rw [Bindings.column?_rename, Fragment.column?_rename, slotConditions, List.map_map]
    rfl
  | const x => rfl

namespace Growth

variable (p : Placement) (g : Growth) (s : Scope)

/-- The columns after a join are the same, under new names. -/
theorem columnsWith_rename : (g.rename r).columnsWith (p.rename r) = r.columns (g.columnsWith p) := by
  rw [columnsWith, Placement.columns_rename]
  exact addColumns_rename ..

/-- A join takes the same filters. -/
theorem take_columnsWith_rename :
    (g.rename r).pending.take (s.rename r).bindings (((g.rename r).columnsWith (p.rename r)).map (·.1)) =
      ((g.pending.take s.bindings ((g.columnsWith p).map (·.1))).1.map (Condition.mapLiterals r.const),
        (g.pending.take s.bindings ((g.columnsWith p).map (·.1))).2.rename r) := by
  have hvars : (r.columns (g.columnsWith p)).map (·.1) = ((g.columnsWith p).map (·.1)).map r.var := by
    simp [Renaming.columns, Function.comp_def]
  rw [columnsWith_rename, hvars]
  exact Pending.take_rename s.bindings _ g.pending

/-- A join takes the same constants: the aliases of its columns do not change. -/
theorem takeAll_columnsWith_rename :
    (s.rename r).constants.takeAll (((g.rename r).columnsWith (p.rename r)).map (·.2.tableAlias)) =
      ((s.constants.takeAll ((g.columnsWith p).map (·.2.tableAlias))).1.map (Condition.mapLiterals r.const),
        (s.constants.takeAll ((g.columnsWith p).map (·.2.tableAlias))).2.rename r) := by
  have haliases : (r.columns (g.columnsWith p)).map (·.2.tableAlias) = (g.columnsWith p).map (·.2.tableAlias) := by
    simp [Renaming.columns, Function.comp_def]
  rw [columnsWith_rename, haliases]
  exact Constants.takeAll_rename s.constants _

/-- What is to be said when a placement joins is the same, in the same order. -/
theorem candidates_rename : (g.rename r).candidates (p.rename r) (s.rename r) =
    (g.candidates p s).map (Condition.mapLiterals r.const) := by
  have hslots : (p.rename r).slots.flatMap ((g.rename r).fragment.slotConditions (s.rename r).bindings) =
      (p.slots.flatMap (g.fragment.slotConditions s.bindings)).map (Condition.mapLiterals r.const) := by
    rw [Placement.slots_rename, List.flatMap_map, List.map_flatMap]
    exact List.flatMap_congr fun slot _ => Fragment.slotConditions_rename s.bindings g.fragment slot
  rw [candidates, hslots, take_columnsWith_rename, takeAll_columnsWith_rename, candidates, List.map_append,
    List.map_append]

/-- What a placement joins is said by what is to be said and by the aliases of the fragment. -/
theorem join_eq : g.join p s =
    ({ fragment :=
        { tree := .join g.fragment.tree .inner (.table p.table) ((Condition.distinct (g.candidates p s)).filter
            (·.isScopedTo (g.fragment.tree.aliases ++ [p.table.aliasName])))
          columns := g.columnsWith p
          outer := Condition.pushAll g.fragment.outer ((Condition.distinct (g.candidates p s)).filter
            (!·.isScopedTo (g.fragment.tree.aliases ++ [p.table.aliasName])))
          leftover := g.fragment.leftover }
       pending := (g.pending.take s.bindings ((g.columnsWith p).map (·.1))).2 },
      { s with constants := (s.constants.takeAll ((g.columnsWith p).map (·.2.tableAlias))).2 }) := rfl

/-- **Joining a placement** commutes with a renaming. -/
theorem join_rename :
    (g.rename r).join (p.rename r) (s.rename r) = ((g.join p s).1.rename r, (g.join p s).2.rename r) := by
  have hinner : ∀ (as : List String) (cs : List Condition), (cs.map (Condition.mapLiterals r.const)).filter
      (·.isScopedTo as) = (cs.filter (·.isScopedTo as)).map (Condition.mapLiterals r.const) := fun as cs => by
    simp only [List.filter_map, Function.comp_def, Condition.isScopedTo_mapLiterals]
  have houter : ∀ (as : List String) (cs : List Condition), (cs.map (Condition.mapLiterals r.const)).filter
      (!·.isScopedTo as) = (cs.filter (!·.isScopedTo as)).map (Condition.mapLiterals r.const) := fun as cs => by
    simp only [List.filter_map, Function.comp_def, Condition.isScopedTo_mapLiterals]
  have haliases : (g.rename r).fragment.tree.aliases = g.fragment.tree.aliases := JoinTree.aliases_mapLiterals _
  rw [join_eq, candidates_rename, take_columnsWith_rename, takeAll_columnsWith_rename, columnsWith_rename, haliases,
    Condition.map_distinct r.const_injective, hinner, houter]
  change (Growth.mk (Fragment.mk _ _ (Condition.pushAll (g.fragment.outer.map _) _) _) _, _) = _
  rw [Condition.map_pushAll r.const_injective]
  rfl

end Growth

/-- **The order of joining is the same** under other names. -/
theorem arrange_rename (known : List String) (ts : List Triple) :
    arrange (known.map r.var) (ts.map (Triple.rename r)) =
      ((arrange known ts).1.map (Triple.rename r), (arrange known ts).2.map (Triple.rename r)) := by
  have hreaches : ∀ (known : List String) (t : Triple), reaches (known.map r.var) (t.rename r) = reaches known t :=
    fun known t => by
      rw [reaches, Triple.vars_rename, List.any_map]
      exact congrArg (t.vars.any ·) (funext fun v => contains_map_of_injective r.var_injective known v)
  have hcomp : ∀ known : List String, reaches (known.map r.var) ∘ Triple.rename r = reaches known :=
    fun known => funext (hreaches known)
  induction known, ts using arrange.induct with
  | case1 known ts hf =>
    have hf' : (ts.map (Triple.rename r)).find? (reaches (known.map r.var)) = none := by
      rw [List.find?_map, hcomp, hf, Option.map_none]
    rw [arrange_of_none hf, arrange_of_none hf', List.map_nil]
  | case2 known ts t hf ih =>
    have hf' : (ts.map (Triple.rename r)).find? (reaches (known.map r.var)) = some (t.rename r) := by
      rw [List.find?_map, hcomp, hf, Option.map_some]
    rw [arrange_of_some hf, arrange_of_some hf', List.eraseP_map, hcomp, Triple.vars_rename, ← List.map_append, ih,
      List.map_cons]

end Joins

namespace Pending

/-- A filter may wait under the new names exactly if it may under the old ones. -/
theorem accept_rename (f : Filter) : accept (f.rename r) = r.except (Filter.rename r) (accept f) := by
  have hvars : ((f.rename r).vars = []) = (f.vars = []) := by rw [Filter.vars_rename, List.map_eq_nil_iff]
  have hoperator : (f.rename r).operator = f.operator := rfl
  unfold accept
  rw [hoperator]
  cases Comparison.ofText? f.operator with
  | none => rfl
  | some c =>
    simp only [hvars]
    split <;> rfl

/-- So may all filters of a graph pattern, and the first one that may not is the same. -/
theorem ofFilters_rename (fs : List Filter) :
    ofFilters (fs.map (Filter.rename r)) = r.except (Pending.rename r) (ofFilters fs) := by
  rw [ofFilters, Renaming.except_mapM accept_rename]
  exact Renaming.except_map fun _ => rfl

/-- A filter without a column for one of its variables is shown under the new names. -/
theorem conditionOf_rename {column? column?' : String → Option Column} (hc : ∀ v, column?' (r.var v) = column? v)
    (f : Filter) :
    conditionOf column?' (f.rename r) = r.except (Condition.mapLiterals r.const) (conditionOf column? f) := by
  unfold conditionOf
  rw [conditionOf?_rename hc]
  cases conditionOf? column? f <;> rfl

/-- The conditions of what is left over, each once, differ in literals only; equal ones stay equal. -/
theorem conditions_rename {column? column?' : String → Option Column} (hc : ∀ v, column?' (r.var v) = column? v)
    (p : Pending) : (p.rename r).conditions column?' =
      r.except (List.map (Condition.mapLiterals r.const)) (p.conditions column?) := by
  have hfilters : (p.rename r).filters = p.filters.map (Filter.rename r) := rfl
  rw [conditions, hfilters, Renaming.except_mapM (conditionOf_rename hc)]
  exact Renaming.except_map fun cs => Condition.map_distinct r.const_injective cs

end Pending

/-- **Whether a fragment holds all of its filters** does not depend on names. -/
theorem Growth.finish_rename (first : Placement) (b : Bindings) (g : Growth) :
    (g.rename r).finish (first.rename r) (b.rename r) = r.except (Fragment.rename r) (g.finish first b) := by
  have hc : ∀ v, ((first.rename r).column? (r.var v) <|> (b.rename r).column? (r.var v)) =
      (first.column? v <|> b.column? v) := fun v => by rw [Placement.column?_rename, Bindings.column?_rename]
  have hempty : (g.rename r).pending.isEmpty = g.pending.isEmpty := by simp [rename, Pending.rename, Pending.isEmpty]
  obtain ⟨⟨tree, columns, outer, leftover⟩, pending⟩ := g
  unfold finish
  rw [hempty]
  split
  · rfl
  · cases tree with
    | join l kind source on => rfl
    | base source =>
      change (pending.rename r).conditions _ >>= _ = _
      rw [Pending.conditions_rename hc]
      exact Renaming.except_bind fun _ => rfl

namespace Assembly

variable (a : Assembly) (f : Fragment) (b : Bindings)

/-- The equalities that link a fragment to the tables before it have no literals to rename. -/
theorem links_rename : (a.rename r).links (f.rename r) (b.rename r) =
    (a.links f b).map (Condition.mapLiterals r.const) := by
  have hmem : ∀ e : String × Column, ((r.var e.1, e.2) ∈ (a.rename r).columns) = (e ∈ a.columns) := fun e =>
    propext (List.mem_map_of_injective (Renaming.columns_injective r))
  change (r.columns f.columns).filterMap _ = _
  rw [links, Renaming.columns, List.filterMap_map, List.map_filterMap]
  refine List.filterMap_congr fun e _ => ?_
  obtain ⟨v, c⟩ := e
  simp only [Function.comp, Bindings.column?_rename]
  cases b.column? v with
  | none => rfl
  | some d =>
    have hm := hmem (v, d)
    simp only [hm]
    split <;> rfl

/-- Neither an equality nor a filter starts or stops connecting. -/
theorem connections_rename : (a.rename r).connections (f.rename r) (b.rename r) =
    (a.connections f b).map (Condition.mapLiterals r.const) := by
  rw [connections, links_rename, connections, ← Condition.map_distinct r.const_injective, List.map_append]
  rfl

/-- **Whether a fragment is connected** to the tables before it does not depend on names. -/
theorem attach_rename (kind : JoinKind) (more : List Condition) :
    (a.rename r).attach kind (more.map (Condition.mapLiterals r.const)) (f.rename r) (b.rename r) =
      r.except (Assembly.rename r) (a.attach kind more f b) := by
  have hnil : ((a.connections f b).map (Condition.mapLiterals r.const) = []) = (a.connections f b = []) := by
    rw [List.map_eq_nil_iff]
  unfold attach
  simp only [connections_rename, hnil, Bindings.names_rename]
  split
  · rfl
  · have hcolumns : addColumns (a.rename r).columns (f.rename r).columns = r.columns (addColumns a.columns f.columns) :=
      addColumns_rename ..
    rw [Condition.map_pushAll r.const_injective, hcolumns]
    rfl

/-- A required fragment is joined, or refused as detached, alike. -/
theorem require_rename : (a.rename r).require (f.rename r) (b.rename r) =
    r.except (Assembly.rename r) (a.require f b) := by
  have hresidual : Condition.pushAll (a.rename r).residual (f.rename r).leftover =
      (Condition.pushAll a.residual f.leftover).map (Condition.mapLiterals r.const) :=
    Condition.map_pushAll r.const_injective ..
  rw [require, hresidual]
  exact attach_rename { a with residual := Condition.pushAll a.residual f.leftover } f b .inner []

/-- An optional fragment is joined, or refused as detached, alike. -/
theorem allow_rename (constants : List Condition) :
    (a.rename r).allow (f.rename r) (constants.map (Condition.mapLiterals r.const)) (b.rename r) =
      r.except (Assembly.rename r) (a.allow f constants b) := by
  change (a.rename r).attach _ (_ ++ f.leftover.map _) _ _ = _
  rw [← List.map_append, attach_rename]
  rfl

/-- The first required fragment under new names. -/
theorem start_rename : start (f.rename r) = (start f).rename r := by
  change Assembly.mk _ _ (Condition.distinct (f.outer.map _ ++ f.leftover.map _)) = _
  rw [← List.map_append, Condition.map_distinct r.const_injective]
  rfl

end Assembly

/-- A target has the same column, or is unbound under its new name. -/
theorem targetColumn_rename (all : Bindings) (v : String) :
    targetColumn (all.rename r) (r.var v) = r.except id (targetColumn all v) := by
  unfold targetColumn
  rw [Bindings.column?_rename]
  cases all.column? v <;> rfl

/-- An ordering is by the same column. -/
theorem orderColumn_rename (all : Bindings) (ordering : Option (String × Direction)) :
    orderColumn (all.rename r) (ordering.map fun o => (r.var o.1, o.2)) = r.except id (orderColumn all ordering) := by
  cases ordering with
  | none => rfl
  | some o =>
    change (targetColumn (all.rename r) (r.var o.1)).map _ = _
    rw [targetColumn_rename]
    exact Renaming.except_map fun _ => rfl

end Compile
end TripleSql
