/-
# The pool of filters

The filters of a graph pattern, kept so that only those of a joined variable are looked at. A filter has a place in the
pool and is marked once a condition stands for it; it never moves. An index has the places of the filters of each
variable, in ascending order, so that a filter of two variables is found under both:

| place | filter | | variable | places |
| --- | --- | --- | --- | --- |
| 0 | `?a < ?b` | | `a` | 0 |
| 1 | `?b = "x"` | | `b` | 0, 1, 2 |
| 2 | `?b <> ?b` | | | |

The filters are taken variable by variable and place by place. A place is passed over if its filter is marked, or if a
variable of it has no column yet; then it may be found again under its other variable, or in a later call.

That the index is right is part of a pool (`FilterPool.indexed`), and marking keeps it. What can be observed of a pool
is the filters without a mark, `FilterPool.pending`.

Source: specification, 4.4; `FilterPool` with `new`, `take_joinable`, `is_empty`, `remaining` and `stage_leftovers`.
-/

import TripleSql.Compile.Pending

namespace TripleSql
namespace Compile

open Pattern Sql

/-- A filter, and whether a condition stands for it. -/
@[ext] structure Slot where
  filter : Filter
  consumed : Bool := false
deriving DecidableEq, Repr

/-- The filter is marked: a condition stands for it. -/
def Slot.consume (s : Slot) : Slot := { s with consumed := true }

/-- The places of the filters of each variable. -/
structure Index where
  entries : List (String × List Nat) := []
deriving DecidableEq, Repr

namespace Index

/-- The places of the filters of a variable. -/
def places (ix : Index) (v : String) : List Nat := (ix.entries.lookup v).getD []

/-- The entries with one more place at the end of those of a variable. -/
def addEntry (v : String) (i : Nat) : List (String × List Nat) → List (String × List Nat)
  | [] => [(v, [i])]
  | e :: es => if v = e.1 then (v, e.2 ++ [i]) :: es else e :: addEntry v i es

/-- The index with one more place for a variable. -/
def add (ix : Index) (v : String) (i : Nat) : Index := ⟨addEntry v i ix.entries⟩

/-- The index with one more place for each of some variables. -/
def addAll (ix : Index) (vs : List String) (i : Nat) : Index := vs.foldl (·.add · i) ix

/-- The first entry of a variable counts. -/
theorem places_cons (e : String × List Nat) (es : List (String × List Nat)) (w : String) :
    places ⟨e :: es⟩ w = if w = e.1 then e.2 else places ⟨es⟩ w := by
  rw [places, show (e :: es).lookup w = _ from List.lookup_cons]
  by_cases h : w = e.1 <;> simp [h, places, beq_eq_false_iff_ne.2]

/-- **One variable is touched at a time:** a place is added to those of its own variable. -/
theorem places_add (ix : Index) (v w : String) (i : Nat) :
    (ix.add v i).places w = if w = v then ix.places v ++ [i] else ix.places w := by
  obtain ⟨es⟩ := ix
  change places ⟨addEntry v i es⟩ w = _
  induction es with
  | nil => rw [addEntry, places_cons]; rfl
  | cons e es ih =>
    rw [addEntry, places_cons, places_cons]
    by_cases hv : v = e.1
    · subst hv
      rw [if_pos rfl, if_pos rfl, places_cons]
      by_cases hw : w = e.1 <;> simp [hw]
    · rw [if_neg hv, if_neg hv, places_cons, ih]
      by_cases hw : w = e.1
      · simp [hw, Ne.symm hv]
      · simp [hw]

/-- A place for some variables is added to those of each of them, and to no others. -/
theorem places_addAll (ix : Index) {vs : List String} (h : vs.Nodup) (w : String) (i : Nat) :
    (ix.addAll vs i).places w = ix.places w ++ if w ∈ vs then [i] else [] := by
  induction vs generalizing ix with
  | nil => simp [addAll]
  | cons v vs ih =>
    obtain ⟨hv, hvs⟩ := List.nodup_cons.1 h
    rw [show ix.addAll (v :: vs) i = (ix.add v i).addAll vs i from rfl, ih _ hvs, places_add]
    by_cases hw : w = v
    · subst hw; simp [hv]
    · simp [hw]

end Index

/-- The places at which a list has the filters of a variable. -/
def placesOf (v : String) (fs : List Filter) : List Nat := (fs.zipIdx.filter (·.1.vars.contains v)).map (·.2)

/-- One more filter has its place, the next one, under its own variables. -/
theorem placesOf_snoc (v : String) (fs : List Filter) (f : Filter) :
    placesOf v (fs ++ [f]) = placesOf v fs ++ if v ∈ f.vars then [fs.length] else [] := by
  unfold placesOf
  by_cases h : v ∈ f.vars <;> simp [List.zipIdx_append, h]

/-- **Filters, each with a mark, and the index of their places.** The index has the places of the filters of every
variable, in ascending order, and no other place. -/
structure FilterPool where
  slots : List Slot
  index : Index
  indexed : ∀ v, index.places v = placesOf v (slots.map (·.filter))

namespace FilterPool

/-- No filter. -/
def empty : FilterPool := ⟨[], {}, fun _ => rfl⟩

/-- The pool with one more filter, which has no mark. -/
def push (pool : FilterPool) (f : Filter) : FilterPool where
  slots := pool.slots ++ [⟨f, false⟩]
  index := pool.index.addAll f.vars pool.slots.length
  indexed v := by
    rw [Index.places_addAll _ f.nodup_vars, pool.indexed, List.map_append, List.map_singleton, placesOf_snoc,
      List.length_map]

/-- The pool of the filters of a graph pattern, if all may wait. -/
def ofFilters (fs : List Filter) : Except Error FilterPool :=
  fs.foldlM (fun pool f => (Pending.accept f).map pool.push) empty

/-- The pool with the filter at a place marked. -/
def mark (pool : FilterPool) (i : Nat) : FilterPool where
  slots := pool.slots.modify i Slot.consume
  index := pool.index
  indexed v := by
    rw [pool.indexed]
    congr 1
    refine List.ext_getElem? fun j => ?_
    rw [List.getElem?_map, List.getElem?_map, List.getElem?_modify]
    cases pool.slots[j]? with
    | none => rfl
    | some s => by_cases h : i = j <;> simp [h, Slot.consume]

/-- Looks at a place: the filter there becomes one more condition and is marked, unless it is marked or a variable of it
has no column. -/
def visit (b : Bindings) (r : List Condition × FilterPool) (i : Nat) : List Condition × FilterPool :=
  match r.2.slots[i]? with
  | none => r
  | some s =>
    if s.consumed then r
    else match conditionOf? b.column? s.filter with
      | none => r
      | some c => (Condition.push r.1 c, r.2.mark i)

/-- Looks at the places of a variable in turn. -/
def visitEach (b : Bindings) (r : List Condition × FilterPool) (v : String) : List Condition × FilterPool :=
  (r.2.index.places v).foldl (visit b) r

/-- The conditions of the filters that are found under some variables, each once, and the pool with these filters
marked. -/
def take (b : Bindings) (vs : List String) (pool : FilterPool) : List Condition × FilterPool :=
  vs.foldl (visitEach b) ([], pool)

/-- Every filter is marked. -/
def isEmpty (pool : FilterPool) : Bool := pool.slots.all (·.consumed)

/-- The filters without a mark, in order. -/
def remaining (pool : FilterPool) : List Filter := (pool.slots.filter (!·.consumed)).map (·.filter)

/-- The filters that no condition stands for yet. -/
def pending (pool : FilterPool) : Pending := ⟨pool.remaining⟩

/-- The conditions of all filters that are left, each once, if every variable has a column, and the pool with every filter
marked. -/
def stage (column? : String → Option Column) (pool : FilterPool) : Except Error (List Condition × FilterPool) :=
  (pool.pending.conditions column?).map fun cs =>
    (cs, ⟨pool.slots.map Slot.consume, pool.index, fun v => by
      rw [pool.indexed, List.map_map]
      rfl⟩)

end FilterPool
end Compile
end TripleSql
