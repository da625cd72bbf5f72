/-
# Filters that are taken call by call

Filters are taken from a pool in as many calls as one likes. Each call has bindings of its own and joined variables of its
own (`Call`); nothing has to grow from one call to the next. What a call takes is what a plain scan of the list finds, one
that knows nothing of an index or of marks: the filters that no call took before, of which a variable is joined and all
variables are bound, in the order of their first joined variables and then of their places in the list (`Call.Scans`).

| filter | place | joined `a b`, bound `b` | then joined `b a b`, bound `a b` | then the same |
| --- | --- | --- | --- | --- |
| `?a like "x"` | 0 | | second, at `a` | |
| `?a < ?b` | 1 | | first, at `b` | |
| `?b = "x"` | 2 | first, at `b` | | |
| `?c = ?b` | 3 | | | |

A filter of two variables has its place under either of them, so it may be passed by under the one and taken under the
other, but it is never taken twice (`ofFilters_scanned`).
-/

import TripleSql.Proofs.FilterIndex
import TripleSql.Proofs.PatternAcceptance

namespace TripleSql
namespace Compile
namespace FilterPool

open Pattern Sql

/-- What is asked for: the filters that are ready under some bindings at some variables. -/
structure Call where
  bindings : Bindings
  joined : List String
deriving DecidableEq, Repr

namespace Call

variable (call : Call)

/-- A variable of the filter is joined, and all of them are bound. -/
def Admits (f : Filter) : Prop := (∃ v ∈ f.vars, v ∈ call.joined) ∧ ∀ v ∈ f.vars, v ∈ call.bindings.vars

instance : DecidablePred call.Admits := fun f =>
  inferInstanceAs (Decidable ((∃ v ∈ f.vars, v ∈ call.joined) ∧ ∀ v ∈ f.vars, v ∈ call.bindings.vars))

/-- The place of the first joined variable that the filter has. -/
def rank (f : Filter) : Nat := call.joined.findIdx (f.vars.contains ·)

/-- The one filter has an earlier joined variable, or the same one and an earlier place. -/
def Before (e e' : Filter × Nat) : Prop :=
  call.rank e.1 < call.rank e'.1 ∨ call.rank e.1 = call.rank e'.1 ∧ e.2 < e'.2

/-- A filter with the first joined variable is found at it. -/
theorem rank_cons_of_mem {b : Bindings} {v : String} {f : Filter} (hv : v ∈ f.vars) (vs : List String) :
    rank ⟨b, v :: vs⟩ f = 0 := by
  simp [rank, List.findIdx_cons, hv]

/-- A filter without the first joined variable is found at a later one. -/
theorem rank_cons_of_not_mem {b : Bindings} {v : String} {f : Filter} (hv : v ∉ f.vars) (vs : List String) :
    rank ⟨b, v :: vs⟩ f = rank ⟨b, vs⟩ f + 1 := by
  simp [rank, List.findIdx_cons, hv]

/-- **What a plain scan finds:** of the filters that wait those that the call admits, in order, each as a condition under
the bindings of the call, and of equivalent conditions the first. -/
structure Scans (waiting taken : List (Filter × Nat)) (cs : List Condition) : Prop where
  mem_taken : ∀ e, e ∈ taken ↔ e ∈ waiting ∧ call.Admits e.1
  ordered : taken.Pairwise call.Before
  conditions : ∃ ds, taken.map (fun e => conditionOf? call.bindings.column? e.1) = ds.map some ∧
    cs = Condition.firsts ds

/-- A call admits the filters that are ready at one of its variables. -/
theorem admits_iff {f : Filter} :
    call.Admits f ↔ ∃ v ∈ call.joined, Pending.isReady call.bindings v f = true := by
  simp only [Pending.isReady_iff]
  exact ⟨fun ⟨⟨v, hv, hj⟩, hall⟩ => ⟨v, hj, hv, hall⟩, fun ⟨v, hj, hv, hall⟩ => ⟨⟨v, hv, hj⟩, hall⟩⟩

end Call

/-- No filter comes before itself. -/
theorem Call.Before.ne {call : Call} {e e' : Filter × Nat} (h : call.Before e e') : e ≠ e' := by
  rintro rfl
  unfold Before at h
  omega

/-- The filters that are ready at some variables, variable by variable, with their places. -/
def collect (b : Bindings) : List String → List (Filter × Nat) → List (Filter × Nat)
  | [], _ => []
  | v :: vs, es =>
    es.filter (Pending.isReady b v ·.1) ++ collect b vs (es.filter (!Pending.isReady b v ·.1))

variable {b : Bindings} {vs : List String} {es : List (Filter × Nat)} {p : Pending} {pool : FilterPool}

/-- Collected is what is ready at one of the variables. -/
theorem mem_collect {e : Filter × Nat} :
    e ∈ collect b vs es ↔ e ∈ es ∧ ∃ v ∈ vs, Pending.isReady b v e.1 = true := by
  induction vs generalizing es with
  | nil => simp [collect]
  | cons v vs ih =>
    simp only [collect, List.mem_append, ih, List.mem_filter, List.exists_mem_cons_iff, Bool.not_eq_true']
    cases Pending.isReady b v e.1 <;> simp

/-- The conditions that are taken are those of the filters that are collected. -/
theorem takeEach_fst (b : Bindings) (vs : List String) (h : p.filters = es.map (·.1)) :
    (p.takeEach b vs).1 = (collect b vs es).filterMap (conditionOf? b.column? ·.1) := by
  induction vs generalizing es p with
  | nil => rfl
  | cons v vs ih =>
    have hrest : (p.takeAt b v).2.filters = (es.filter (!Pending.isReady b v ·.1)).map (·.1) :=
      (congrArg _ h).trans List.filter_map
    have hhead : (p.takeAt b v).1 = (es.filter (Pending.isReady b v ·.1)).filterMap (conditionOf? b.column? ·.1) := by
      rw [Pending.takeAt, h, List.filter_map, List.filterMap_map]
      rfl
    rw [Pending.takeEach, ih hrest, hhead, collect, List.filterMap_append]

/-- What is collected after `v` does not have `v`: with all of its variables bound it would have been ready there. -/
theorem not_mem_vars_of_mem_collect {v : String} {e : Filter × Nat}
    (he : e ∈ collect b vs (es.filter (!Pending.isReady b v ·.1))) : v ∉ e.1.vars := by
  obtain ⟨he, w, -, hw⟩ := mem_collect.1 he
  intro hv
  have hready : Pending.isReady b v e.1 = true := Pending.isReady_iff.2 ⟨hv, (Pending.isReady_iff.1 hw).2⟩
  simp [hready] at he

/-- **What is collected comes in order,** by the first joined variables and then by the places. -/
theorem pairwise_collect (h : es.Pairwise (·.2 < ·.2)) : (collect b vs es).Pairwise (Call.Before ⟨b, vs⟩) := by
  induction vs generalizing es with
  | nil => exact .nil
  | cons v vs ih =>
    have hnow : ∀ e ∈ es.filter (Pending.isReady b v ·.1), Call.rank ⟨b, v :: vs⟩ e.1 = 0 := fun e he =>
      Call.rank_cons_of_mem (Pending.isReady_iff.1 (List.mem_filter.1 he).2).1 vs
    have hlater : ∀ e ∈ collect b vs (es.filter (!Pending.isReady b v ·.1)),
        Call.rank ⟨b, v :: vs⟩ e.1 = Call.rank ⟨b, vs⟩ e.1 + 1 := fun e he =>
      Call.rank_cons_of_not_mem (not_mem_vars_of_mem_collect he) vs
    refine List.pairwise_append.2 ⟨?now, ?later, fun e he e' he' => ?across⟩
    case now =>
      exact (h.filter _).imp_of_mem fun he he' hlt => .inr ⟨(hnow _ he).trans (hnow _ he').symm, hlt⟩
    case later =>
      refine (ih (h.filter _)).imp_of_mem fun he he' hbefore => ?_
      simp only [Call.Before, hlater _ he, hlater _ he']
      exact hbefore.imp (by omega) fun ⟨hrank, hlt⟩ => ⟨by omega, hlt⟩
    case across =>
      exact .inl (by rw [hnow e he, hlater e' he']; omega)

/-- **One call:** what it takes of the filters that wait is what a plain scan finds. -/
theorem scans_take (call : Call) (pool : FilterPool) :
    call.Scans pool.waiting (collect call.bindings call.joined pool.waiting) (pool.take call.bindings call.joined).1 where
  mem_taken e := by rw [mem_collect, Call.admits_iff]
  ordered := pairwise_collect pool.pairwise_waiting
  conditions := by
    have htake := congrArg Prod.fst (take_pending call.bindings call.joined pool)
    have heach : (pool.pending.takeEach call.bindings call.joined).1 = _ :=
      takeEach_fst call.bindings call.joined pool.map_fst_waiting.symm
    refine ⟨_, ?_, htake.trans ((congrArg Condition.distinct heach).trans (Condition.distinct_eq_firsts _))⟩
    rw [List.map_filterMap_some_eq_filter_map_isSome, eq_comm, List.filter_eq_self]
    intro c hc
    obtain ⟨e, he, rfl⟩ := List.mem_map.1 hc
    obtain ⟨-, v, -, hready⟩ := mem_collect.1 he
    exact (Bool.and_eq_true_iff.1 hready).2

/-- What still waits after a call is what it did not take, at its old places. -/
theorem waiting_after (call : Call) (pool : FilterPool) :
    (pool.take call.bindings call.joined).2.waiting =
      pool.waiting.filter (· ∉ collect call.bindings call.joined pool.waiting) := by
  rw [waiting_take]
  refine List.filter_congr fun e he => ?_
  rw [Bool.eq_iff_iff]
  simp [mem_collect, he]

/-- The pool after some calls. -/
def run (pool : FilterPool) (calls : List Call) : FilterPool :=
  calls.foldl (fun pool call => (pool.take call.bindings call.joined).2) pool

/-- The filters that none of the first calls took. -/
def untaken (es : List (Filter × Nat)) (taken : List (List (Filter × Nat))) (k : Nat) : List (Filter × Nat) :=
  es.filter (· ∉ (taken.take k).flatten)

/-- Before the first call nothing is taken. -/
theorem untaken_zero (es : List (Filter × Nat)) (taken : List (List (Filter × Nat))) : untaken es taken 0 = es :=
  List.filter_eq_self.2 fun _ _ => rfl

/-- What the calls after the first one find is what the first one left. -/
theorem untaken_succ (es t : List (Filter × Nat)) (taken : List (List (Filter × Nat))) (k : Nat) :
    untaken es (t :: taken) (k + 1) = untaken (es.filter (· ∉ t)) taken k := by
  rw [untaken, untaken, List.filter_filter]
  refine List.filter_congr fun e _ => ?_
  rw [Bool.eq_iff_iff, Bool.and_eq_true, decide_eq_true_iff, decide_eq_true_iff, decide_eq_true_iff, List.take_succ_cons,
    List.flatten_cons, List.mem_append, not_or, and_comm]

/-- **Calls take what plain scans find:** every call takes from the filters that none before it took, no filter is taken
twice, and what waits after some of the calls is what they left, each filter at its place. -/
structure Scanned (pool : FilterPool) (calls : List Call) (taken : List (List (Filter × Nat))) : Prop where
  length_eq : taken.length = calls.length
  scans : ∀ (k : Nat) (call : Call) (t : List (Filter × Nat)), calls[k]? = some call → taken[k]? = some t →
    call.Scans (untaken pool.waiting taken k) t ((pool.run (calls.take k)).take call.bindings call.joined).1
  nodup : taken.flatten.Nodup
  waiting_eq : ∀ k, (pool.run (calls.take k)).waiting = untaken pool.waiting taken k

namespace Scanned

variable {calls : List Call} {taken : List (List (Filter × Nat))} (h : Scanned pool calls taken)
include h

/-- What is taken was there. -/
theorem mem_of_mem {e : Filter × Nat} (he : e ∈ taken.flatten) : e ∈ pool.waiting := by
  obtain ⟨t, ht, he⟩ := List.mem_flatten.1 he
  obtain ⟨k, hk, rfl⟩ := List.getElem_of_mem ht
  have hscans := h.scans k _ _ (List.getElem?_eq_getElem (h.length_eq ▸ hk)) (List.getElem?_eq_getElem hk)
  exact (List.mem_filter.1 ((hscans.mem_taken e).1 he).1).1

/-- What is left at the end, in order. -/
theorem remaining_eq : (pool.run calls).remaining = (pool.waiting.filter (· ∉ taken.flatten)).map (·.1) := by
  have hwaiting := h.waiting_eq calls.length
  rw [List.take_length, untaken, List.take_of_length_le h.length_eq.le] at hwaiting
  rw [← map_fst_waiting, hwaiting]

end Scanned

/-- **Whatever is asked for, call after call, plain scans find it.** -/
theorem exists_scanned (calls : List Call) (pool : FilterPool) : ∃ taken, Scanned pool calls taken := by
  induction calls generalizing pool with
  | nil => exact ⟨[], rfl, nofun, .nil, fun k => by simp [untaken, run]⟩
  | cons call calls ih =>
    have hscans := scans_take call pool
    have hafter := waiting_after call pool
    obtain ⟨taken, hrun⟩ := ih (pool.take call.bindings call.joined).2
    refine ⟨collect call.bindings call.joined pool.waiting :: taken, ?length, ?scans, ?nodup, ?waiting⟩
    case length => rw [List.length_cons, List.length_cons, hrun.length_eq]
    case scans =>
      intro k call' t hcall ht
      cases k with
      | zero =>
        obtain rfl := Option.some.inj hcall
        obtain rfl := Option.some.inj ht
        rw [untaken_zero]
        exact hscans
      | succ k =>
        rw [untaken_succ, ← hafter]
        exact hrun.scans k call' t hcall ht
    case nodup =>
      -- a later call takes from what this one left
      refine List.nodup_append.2 ⟨hscans.ordered.imp Call.Before.ne, hrun.nodup, fun e he e' he' hee => ?_⟩
      have hleft := hrun.mem_of_mem he'
      rw [hafter] at hleft
      exact of_decide_eq_true (List.mem_filter.1 hleft).2 (hee ▸ he)
    case waiting =>
      intro k
      cases k with
      | zero => rw [untaken_zero]; rfl
      | succ k => rw [untaken_succ, ← hafter]; exact hrun.waiting_eq k

/-- **The index agrees with a plain scan,** whatever filters are accepted and whatever is asked for: the filters wait in
order with their operators spelled as in SQL, each call takes what a plain scan of those not taken yet finds, none is taken
twice, what is left are the filters that were not taken, in order, and every filter is marked once nothing is left. -/
theorem ofFilters_scanned {fs : List Filter} (h : ofFilters fs = .ok pool) (calls : List Call) :
    pool.waiting = (fs.map Filter.spelled).zipIdx ∧
    ∃ taken, Scanned pool calls taken ∧
      (pool.run calls).remaining = ((fs.map Filter.spelled).zipIdx.filter (· ∉ taken.flatten)).map (·.1) ∧
      ((pool.run calls).isEmpty = true ↔ (pool.run calls).remaining = []) := by
  have hpending : Pending.ofFilters fs = .ok pool.pending := by rw [← ofFilters_pending, h]; rfl
  have hremaining : pool.remaining = fs.map Filter.spelled :=
    congrArg Pending.filters (Pending.ofFilters_eq_ok.1 hpending).2
  have hwaiting := (waiting_ofFilters h).trans (congrArg (List.zipIdx · 0) hremaining)
  obtain ⟨taken, htaken⟩ := exists_scanned calls pool
  refine ⟨hwaiting, taken, htaken, hwaiting ▸ htaken.remaining_eq, ?_⟩
  rw [isEmpty_pending]
  exact List.isEmpty_iff

/-- `?a like "x"`, `?a < ?b`, `?b = "x"` and `?c = ?b`. -/
def mixed : List Filter :=
  [⟨.var "a", " like", .const "x"⟩, ⟨.var "a", "<", .var "b"⟩, ⟨.var "b", "=", .const "x"⟩, ⟨.var "c", "=", .var "b"⟩]

/-- First only `?b` is bound, then `?a` as well; `?b` is joined twice. -/
def mixedCalls : List Call :=
  [⟨⟨[("b", ⟨"t", "o"⟩)]⟩, ["a", "b"]⟩, ⟨⟨[("b", ⟨"t", "o"⟩), ("a", ⟨"t", "s"⟩)]⟩, ["b", "a", "b"]⟩]

/-- The first call takes the third filter; the second one takes the second filter at `?b`, then the first one at `?a`. -/
theorem mixed_scanned : ∃ pool, ofFilters mixed = .ok pool ∧
    pool.waiting = (mixed.map Filter.spelled).zipIdx ∧ (∃ taken, Scanned pool mixedCalls taken) ∧
    ((pool.run (mixedCalls.take 1)).take mixedCalls[1].bindings mixedCalls[1].joined).1 =
      [⟨.column ⟨"t", "s"⟩, "<", .column ⟨"t", "o"⟩⟩, ⟨.column ⟨"t", "s"⟩, "LIKE", .literal "x"⟩] ∧
    (pool.run mixedCalls).remaining = [⟨.var "c", "=", .var "b"⟩] := by
  have htake : (ofFilters mixed).map (fun pool =>
      ((pool.run (mixedCalls.take 1)).take mixedCalls[1].bindings mixedCalls[1].joined).1) =
      .ok [⟨.column ⟨"t", "s"⟩, "<", .column ⟨"t", "o"⟩⟩, ⟨.column ⟨"t", "s"⟩, "LIKE", .literal "x"⟩] := by
    decide
  have hleft : (ofFilters mixed).map (fun pool => (pool.run mixedCalls).remaining) =
      .ok [⟨.var "c", "=", .var "b"⟩] := by
    decide
  cases hpool : ofFilters mixed with
  | error e =>
    rw [hpool] at hleft
    cases hleft
  | ok pool =>
    obtain ⟨hwaiting, taken, htaken, -⟩ := ofFilters_scanned hpool mixedCalls
    rw [hpool] at htake hleft
    exact ⟨pool, rfl, hwaiting, ⟨taken, htaken⟩, Except.ok.inj htake, Except.ok.inj hleft⟩

end FilterPool
end Compile
end TripleSql
