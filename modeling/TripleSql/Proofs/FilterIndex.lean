/-
# What the index finds

Going through the places of a variable finds every filter that has the variable, in the order of the places, and no other
filter (`visitEach_spec`): the index has these places by its invariant. What is taken there is what a look at all filters
that wait takes, and the filters that are marked are those that do not wait any longer. So a pool and the filters without
a mark answer in the same way whatever is asked:

| asked of the pool | asked of the filters without a mark | |
| --- | --- | --- |
| `ofFilters` | `ofFilters` | `ofFilters_pending` |
| `take` | `take` | `take_pending` |
| `stage` | `conditions` | `stage_pending` |
| `isEmpty` | `isEmpty` | `isEmpty_pending` |

A mark stands at a place, so the filters that wait are known by their places as well (`waiting`), and taking removes some
of them and moves none (`waiting_take`).
-/

import TripleSql.Compile.FilterPool
import TripleSql.Proofs.ReadyFilters
import TripleSql.Proofs.Representatives

namespace TripleSql
namespace Compile

open Pattern Sql

namespace Slot

/-- The condition that is taken from the slot at a variable. -/
def yields? (b : Bindings) (v : String) (s : Slot) : Option Condition :=
  if s.consumed || !Pending.isReady b v s.filter then none else conditionOf? b.column? s.filter

/-- The slot after its filter was looked at: it is marked if the filter is ready at one of the variables. -/
def visited (b : Bindings) (vs : List String) (s : Slot) : Slot :=
  if vs.any (Pending.isReady b · s.filter) then s.consume else s

/-- A mark stays. -/
theorem consumed_visited (b : Bindings) (vs : List String) (s : Slot) :
    (s.visited b vs).consumed = (s.consumed || vs.any (Pending.isReady b · s.filter)) := by
  unfold visited
  split
  · next h => simp [h, consume]
  · next h => simp [h]

/-- A look at a filter does not change it. -/
@[simp] theorem filter_visited (b : Bindings) (vs : List String) (s : Slot) : (s.visited b vs).filter = s.filter := by
  unfold visited
  split <;> rfl

/-- A look at one variable and then at others is a look at all of them. -/
theorem visited_visited (b : Bindings) (v : String) (vs : List String) (s : Slot) :
    (s.visited b [v]).visited b vs = s.visited b (v :: vs) := by
  refine Slot.ext (by simp) ?_
  simp only [consumed_visited, filter_visited, List.any_cons, List.any_nil, Bool.or_false, Bool.or_assoc]

end Slot

namespace FilterPool

variable {b : Bindings} {v : String} {vs : List String} {pool : FilterPool} {pre suf : List Slot} {s : Slot}

/-- Marking at a place changes what stands there. -/
theorem slots_mark (h : pool.slots = pre ++ s :: suf) : (pool.mark pre.length).slots = pre ++ s.consume :: suf := by
  change pool.slots.modify pre.length Slot.consume = _
  rw [h, List.modify_eq_take_cons_drop (by simp)]
  simp

/-- **One place:** its filter becomes a condition and is marked if it is ready, unless it was marked. -/
theorem visit_spec (b : Bindings) (cs : List Condition) (h : pool.slots = pre ++ s :: suf) (hv : v ∈ s.filter.vars) :
    (visit b (cs, pool) pre.length).1 = Condition.pushAll cs (s.yields? b v).toList ∧
      (visit b (cs, pool) pre.length).2.slots = pre ++ s.visited b [v] :: suf := by
  have hs : pool.slots[pre.length]? = some s := by simp [h]
  have hready : Pending.isReady b v s.filter = (conditionOf? b.column? s.filter).isSome := by
    simp [Pending.isReady, hv]
  simp only [visit, hs, Slot.yields?, Slot.visited, List.any_cons, List.any_nil, Bool.or_false, hready]
  cases hmark : s.consumed with
  | true =>
    have hself : s.consume = s := by rw [Slot.consume, ← hmark]
    simp [h, hself, Condition.pushAll]
  | false =>
    cases conditionOf? b.column? s.filter with
    | none => simp [h, Condition.pushAll]
    | some c => exact ⟨rfl, slots_mark h⟩

/-- **Going through the places of a variable** from some place on looks at the filters that have it and passes by all
others, which are not ready at it. -/
theorem foldl_visit (cs : List Condition) (h : pool.slots = pre ++ suf) {is : List Nat}
    (his : is = (((suf.map (·.filter)).zipIdx pre.length).filter (·.1.vars.contains v)).map (·.2)) :
    (is.foldl (visit b) (cs, pool)).1 = Condition.pushAll cs (suf.filterMap (Slot.yields? b v)) ∧
      (is.foldl (visit b) (cs, pool)).2.slots = pre ++ suf.map (Slot.visited b [v]) := by
  induction suf generalizing pre cs pool is with
  | nil =>
    subst his
    exact ⟨rfl, h⟩
  | cons s suf ih =>
    -- what stands behind `s` stands behind `pre` and `s`, be it marked or not
    have hsnoc : ∀ (s' : Slot) l, pre ++ s' :: l = (pre ++ [s']) ++ l := fun s' l => List.append_cons pre s' l
    rw [List.map_cons, List.zipIdx_cons, List.filter_cons] at his
    by_cases hv : v ∈ s.filter.vars
    · rw [if_pos (List.contains_iff_mem.2 hv), List.map_cons] at his
      obtain ⟨hcs, hslots⟩ := visit_spec b cs h hv
      obtain ⟨hcs', hslots'⟩ := ih (visit b (cs, pool) pre.length).1 (hslots.trans (hsnoc _ _))
        (by rw [List.length_append, List.length_singleton])
      subst his
      refine ⟨hcs'.trans ?_, hslots'.trans (hsnoc _ _).symm⟩
      rw [hcs]
      cases hs : s.yields? b v <;> simp [hs, Condition.pushAll]
    · rw [if_neg (by simpa using hv)] at his
      have hnot : Pending.isReady b v s.filter = false := by simp [Pending.isReady, hv]
      have hnone : s.yields? b v = none := by simp [Slot.yields?, hnot]
      have hself : s.visited b [v] = s := by simp [Slot.visited, hnot]
      obtain ⟨hcs', hslots'⟩ := ih cs (h.trans (hsnoc s suf))
        (his.trans (by rw [List.length_append, List.length_singleton]))
      rw [List.filterMap_cons, hnone, List.map_cons, hself]
      exact ⟨hcs', hslots'.trans (hsnoc s _).symm⟩

/-- What the slots yield at a variable are the conditions of the filters without a mark that are ready there. -/
theorem filterMap_yields? (slots : List Slot) :
    slots.filterMap (Slot.yields? b v) =
      (((slots.filter (!·.consumed)).map (·.filter)).filter (Pending.isReady b v)).filterMap
        (conditionOf? b.column?) := by
  induction slots with
  | nil => rfl
  | cons s slots ih =>
    rw [List.filterMap_cons, ih]
    cases hmark : s.consumed <;> cases hready : Pending.isReady b v s.filter <;>
      simp [Slot.yields?, hmark, hready, List.filterMap_cons]

/-- The filters without a mark after a look at some variables are those that are ready at none of them. -/
theorem filter_visited (slots : List Slot) :
    (((slots.map (Slot.visited b vs)).filter (!·.consumed)).map (·.filter)) =
      ((slots.filter (!·.consumed)).map (·.filter)).filter fun f => !vs.any (Pending.isReady b · f) := by
  induction slots with
  | nil => rfl
  | cons s slots ih =>
    cases hmark : s.consumed <;> cases hready : vs.any (Pending.isReady b · s.filter) <;>
      simp_all [Slot.consumed_visited]

/-- **One variable:** what is found under it is what is ready at it and has no mark. -/
theorem visitEach_spec (b : Bindings) (v : String) (cs : List Condition) (pool : FilterPool) :
    (visitEach b (cs, pool) v).1 = Condition.pushAll cs (pool.pending.takeAt b v).1 ∧
      (visitEach b (cs, pool) v).2.slots = pool.slots.map (Slot.visited b [v]) := by
  obtain ⟨hcs, hslots⟩ := foldl_visit (b := b) cs (List.nil_append pool.slots).symm (pool.indexed v)
  exact ⟨hcs.trans (congrArg _ (filterMap_yields? _)), hslots⟩

/-- After a look at one variable those filters wait that are not ready there. -/
theorem pending_visitEach (b : Bindings) (v : String) (cs : List Condition) (pool : FilterPool) :
    (visitEach b (cs, pool) v).2.pending = (pool.pending.takeAt b v).2 := by
  rw [pending, remaining, (visitEach_spec b v cs pool).2, filter_visited]
  simp [Pending.takeAt, pending, remaining]

/-- **Some variables in turn:** what is taken is what is taken from the filters without a mark, and the filters that are
ready at one of the variables are marked. -/
theorem foldl_visitEach (b : Bindings) (vs : List String) (cs : List Condition) (pool : FilterPool) :
    (vs.foldl (visitEach b) (cs, pool)).1 = Condition.pushAll cs (pool.pending.takeEach b vs).1 ∧
      (vs.foldl (visitEach b) (cs, pool)).2.slots = pool.slots.map (Slot.visited b vs) := by
  induction vs generalizing cs pool with
  | nil => exact ⟨rfl, (List.map_id' _).symm⟩
  | cons v vs ih =>
    obtain ⟨hcs, hslots⟩ := visitEach_spec b v cs pool
    obtain ⟨hcs', hslots'⟩ := ih (visitEach b (cs, pool) v).1 (visitEach b (cs, pool) v).2
    refine ⟨hcs'.trans ?_, hslots'.trans ?_⟩
    · rw [hcs, pending_visitEach]
      exact List.foldl_append.symm
    · rw [hslots, List.map_map]
      exact List.map_congr_left fun s _ => Slot.visited_visited b v vs s

/-- **Taking from a pool is taking from the filters without a mark.** -/
theorem take_pending (b : Bindings) (vs : List String) (pool : FilterPool) :
    ((pool.take b vs).1, (pool.take b vs).2.pending) = pool.pending.take b vs := by
  obtain ⟨hcs, hslots⟩ := foldl_visitEach b vs [] pool
  have hrest : (pool.take b vs).2.remaining = (pool.pending.takeEach b vs).2.filters := by
    rw [remaining, take, hslots, filter_visited, Pending.filters_takeEach]
    rfl
  exact Prod.ext hcs (congrArg Pending.mk hrest)

/-- A pool is empty if no filter waits in it. -/
theorem isEmpty_pending (pool : FilterPool) : pool.isEmpty = pool.pending.isEmpty := by
  rw [Bool.eq_iff_iff]
  simp [isEmpty, pending, remaining, Pending.isEmpty]

/-- **The slots of a fresh pool** are the filters that are accepted, none of them marked; or the error is that of the first
filter that is refused. -/
theorem ofFilters_slots (fs : List Filter) :
    (ofFilters fs).map (·.slots) = (fs.mapM Pending.accept).map (·.map (Slot.mk · false)) := by
  have hfold : ∀ pool : FilterPool, (fs.foldlM (fun pool f => (Pending.accept f).map pool.push) pool).map (·.slots) =
      (fs.mapM Pending.accept).map fun gs => pool.slots ++ gs.map (Slot.mk · false) := by
    induction fs with
    | nil =>
      intro pool
      exact congrArg Except.ok (List.append_nil _).symm
    | cons f fs ih =>
      intro pool
      rw [List.foldlM_cons, List.mapM_cons]
      cases Pending.accept f with
      | error e => rfl
      | ok g =>
        refine (ih (pool.push g)).trans ?_
        change _ = Except.map _ (fs.mapM Pending.accept >>= fun gs => pure (g :: gs))
        cases fs.mapM Pending.accept with
        | error e => rfl
        | ok gs => exact congrArg Except.ok (List.append_cons ..).symm
  exact hfold empty

/-- Where no filter is marked, all of them wait. -/
theorem filter_slots (gs : List Filter) : ((gs.map (Slot.mk · false)).filter (!·.consumed)).map (·.filter) = gs := by
  simp [List.filter_map, Function.comp_def]

/-- **The filters of a pool are those that wait,** or the error is the same. -/
theorem ofFilters_pending (fs : List Filter) : (ofFilters fs).map pending = Pending.ofFilters fs := by
  have hslots := congrArg (Except.map fun ss : List Slot => Pending.mk ((ss.filter (!·.consumed)).map (·.filter)))
    (ofFilters_slots fs)
  rw [Pending.ofFilters]
  cases hpool : ofFilters fs <;> cases haccept : fs.mapM Pending.accept <;> rw [hpool, haccept] at hslots
  · exact hslots
  · cases hslots
  · cases hslots
  · exact hslots.trans (congrArg (fun gs => Except.ok (Pending.mk gs)) (filter_slots _))

/-- What is staged is what is left of the filters that wait; after it nothing waits. -/
theorem stage_pending (column? : String → Option Column) (pool : FilterPool) :
    (pool.stage column?).map (fun r => (r.1, r.2.pending)) = (pool.pending.conditions column?).map (·, {}) := by
  rw [stage]
  cases pool.pending.conditions column? with
  | error e => rfl
  | ok cs => simp [Except.map, pending, remaining, Slot.consume, List.filter_map]

/-- The filters that wait, with their places. -/
def waiting (pool : FilterPool) : List (Filter × Nat) :=
  (pool.slots.zipIdx.filter (!·.1.consumed)).map fun e => (e.1.filter, e.2)

/-- What waits, without the places. -/
theorem map_fst_waiting (pool : FilterPool) : pool.waiting.map (·.1) = pool.remaining := by
  have hslots : pool.slots.filter (!·.consumed) = (pool.slots.zipIdx.filter (!·.1.consumed)).map (·.1) := by
    conv_lhs => rw [← List.zipIdx_map_fst 0 pool.slots, List.filter_map]
    rfl
  rw [remaining, hslots, waiting, List.map_map, List.map_map]
  rfl

/-- **In a fresh pool** every filter waits at its place. -/
theorem waiting_ofFilters {fs : List Filter} (h : ofFilters fs = .ok pool) :
    pool.waiting = pool.remaining.zipIdx := by
  have hslots := ofFilters_slots fs
  rw [h] at hslots
  cases haccept : fs.mapM Pending.accept with
  | error e => rw [haccept] at hslots; cases hslots
  | ok gs =>
    rw [haccept] at hslots
    have hgs : pool.slots = gs.map (Slot.mk · false) := Except.ok.inj hslots
    rw [remaining, waiting, hgs, filter_slots, List.zipIdx_map, List.filter_map, List.map_map]
    exact (congrArg _ (List.filter_eq_self.2 fun _ _ => rfl)).trans (List.map_id' _)

/-- The places of what waits are in ascending order. -/
theorem pairwise_waiting (pool : FilterPool) : pool.waiting.Pairwise (·.2 < ·.2) := by
  have hplaces : (pool.slots.zipIdx.map (·.2)).Pairwise (· < ·) := by
    rw [List.zipIdx_map_snd]
    exact List.pairwise_lt_range'
  exact List.pairwise_map.2 ((List.pairwise_map.1 hplaces).filter _)

/-- **Taking moves nothing:** what is ready at none of the variables waits at its place. -/
theorem waiting_take (b : Bindings) (vs : List String) (pool : FilterPool) :
    (pool.take b vs).2.waiting = pool.waiting.filter fun e => !vs.any (Pending.isReady b · e.1) := by
  have hentry : ((fun e : Slot × Nat => (e.1.filter, e.2)) ∘ Prod.map (Slot.visited b vs) id) =
      fun e => (e.1.filter, e.2) := funext fun e => by simp
  rw [waiting, take, (foldl_visitEach b vs [] pool).2, List.zipIdx_map, waiting, List.filter_map, List.map_map,
    List.filter_map, List.filter_filter, hentry]
  congr 1
  refine List.filter_congr fun e _ => ?_
  simp [Slot.consumed_visited, Bool.and_comm]

end FilterPool
end Compile
end TripleSql
