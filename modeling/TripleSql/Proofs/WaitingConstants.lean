/-
# No constant is lost and none comes twice

Constants are added under aliases and taken again, from one alias or from several, in any order (`Call`). What waits under
an alias is what was added under it since it was last taken, of equivalent conditions the first (`under_run`):

| call | waits under `a` | waits under `b` | taken |
| --- | --- | --- | --- |
| `add a (x = 1)` | `x = 1` | | |
| `add b (x = 1)` | `x = 1` | `x = 1` | |
| `add a (x = 1)` | `x = 1` | `x = 1` | |
| `takeAll [a, a]` | | `x = 1` | `x = 1` |
| `add a (y = 2)` | `y = 2` | `x = 1` | |

So a removal returns these conditions and nothing else, an alias that is named twice is empty the second time, and what is
left at the end has one condition for each class of those that were not taken (`run_conserves`).
-/

import Mathlib.Data.List.DropRight
import TripleSql.Proofs.Representatives

namespace TripleSql
namespace Compile
namespace Constants

open Sql

/-- What may happen to the constants that wait. -/
inductive Call where
  | add (aliasName : String) (c : Condition)
  | take (aliasName : String)
  | takeAll (aliasNames : List String)
deriving DecidableEq, Repr

namespace Call

/-- The call takes what waits under the alias. -/
def removes (a : String) : Call → Bool
  | add .. => false
  | take b => b = a
  | takeAll as => a ∈ as

/-- The condition that the call adds under the alias. -/
def added? (a : String) : Call → Option Condition
  | add b c => if b = a then some c else none
  | _ => none

/-- The conditions that were added under an alias since it was last taken. -/
def since (a : String) (calls : List Call) : List Condition :=
  (calls.rtakeWhile fun call => !call.removes a).filterMap (added? a)

/-- What was added since the last removal starts again at a removal. -/
theorem since_snoc (a : String) (calls : List Call) (call : Call) :
    since a (calls ++ [call]) = if call.removes a then [] else since a calls ++ (call.added? a).toList := by
  unfold since
  split
  · next h => rw [List.rtakeWhile_concat_neg _ _ _ (by simp [h]), List.filterMap_nil]
  · next h =>
    rw [List.rtakeWhile_concat_pos _ _ _ (by simp [h]), List.filterMap_append]
    cases hc : call.added? a <;> simp [hc]

end Call

/-- What waits after a call. -/
def after (k : Constants) : Call → Constants
  | .add a c => k.add a c
  | .take a => (k.take a).2
  | .takeAll as => (k.takeAll as).2

/-- What waits after some calls when nothing waited before. -/
def run (calls : List Call) : Constants := calls.foldl after {}

/-- Calls are run one after the other. -/
theorem run_snoc (calls : List Call) (call : Call) : run (calls ++ [call]) = (run calls).after call :=
  List.foldl_append

/-- **One call:** an alias that is taken is empty, and what is added under it is pushed. -/
theorem under_after (k : Constants) (a : String) (call : Call) :
    (k.after call).under a = if call.removes a then [] else Condition.pushAll (k.under a) (call.added? a).toList := by
  cases call with
  | add b c =>
    rw [after, under_add]
    by_cases h : a = b
    · subst h
      simp [Call.removes, Call.added?, Condition.pushAll]
    · simp [Call.removes, Call.added?, Condition.pushAll, h, Ne.symm h]
  | take b =>
    rw [after, take, under_without]
    simp [Call.removes, Call.added?, Condition.pushAll, eq_comm]
  | takeAll as =>
    rw [after, under_takeAll]
    simp [Call.removes, Call.added?, Condition.pushAll]

/-- **Under an alias waits what was added since it was last taken,** of equivalent conditions the first. -/
theorem under_run (calls : List Call) (a : String) :
    (run calls).under a = Condition.firsts (Call.since a calls) := by
  rw [← Condition.distinct_eq_firsts]
  induction calls using List.reverseRecOn with
  | nil => rfl
  | append_singleton calls call ih =>
    rw [run_snoc, under_after, ih, Call.since_snoc]
    split
    · rfl
    · exact (List.foldl_append ..).symm

/-- What waits under an alias that is named last is taken last, unless the alias was named before. -/
theorem takeAll_snoc (k : Constants) (as : List String) (a : String) :
    (k.takeAll (as ++ [a])).1 = (k.takeAll as).1 ++ (k.takeAll as).2.under a := by
  induction as generalizing k with
  | nil => simp [takeAll]
  | cons b as ih => simp only [List.cons_append, takeAll, ih, List.append_assoc]

/-- **An alias that is named more than once gives its conditions where it is named first.** -/
theorem takeAll_fst (k : Constants) (as : List String) : (k.takeAll as).1 = as.eraseDups.flatMap k.under := by
  induction as using List.reverseRecOn with
  | nil => rfl
  | append_singleton as a ih =>
    rw [takeAll_snoc, ih, under_takeAll, List.eraseDups_append, List.flatMap_append]
    congr 1
    by_cases h : a ∈ as <;> simp [List.removeAll, List.eraseDups_cons, h]

/-- At the end no two conditions are equivalent. -/
theorem apart_conditions (k : Constants) : Condition.Apart k.conditions := Condition.apart_distinct _

/-- Nothing waits if nothing is left at the end, and only then. -/
theorem isEmpty_iff {k : Constants} : k.isEmpty = true ↔ k.conditions = [] := by
  constructor
  · intro h
    rw [conditions, List.isEmpty_iff.1 h, List.mergeSort_nil]
    rfl
  · intro h
    refine List.isEmpty_iff.2 (List.eq_nil_iff_forall_not_mem.2 fun e he => ?_)
    obtain ⟨c, hc, -⟩ := has_conditions (mem_under.2 he)
    exact List.not_mem_nil (h ▸ hc)

/-- **Nothing is lost, nothing comes twice, and nothing comes from nowhere.** After any calls a removal returns, alias by
alias, the conditions that were added under the alias since it was last taken, the first of each class; it empties these
aliases and touches no other one. What is left at the end has exactly one condition for each class of those that were
added and not taken, and it is empty only if nothing waits. -/
theorem run_conserves (calls : List Call) :
    (∀ a, ((run calls).take a).1 = Condition.firsts (Call.since a calls) ∧
      (((run calls).take a).2.take a).1 = [] ∧
      ∀ b, ((run calls).take a).2.under b = if b = a then [] else (run calls).under b) ∧
    (∀ as, ((run calls).takeAll as).1 = as.eraseDups.flatMap (fun a => Condition.firsts (Call.since a calls)) ∧
      (((run calls).takeAll as).2.takeAll as).1 = [] ∧
      ∀ b, ((run calls).takeAll as).2.under b = if b ∈ as then [] else (run calls).under b) ∧
    Condition.Apart (run calls).conditions ∧
    (∀ c ∈ (run calls).conditions, ∃ a, c ∈ Call.since a calls) ∧
    (∀ a, ∀ c ∈ Call.since a calls, Condition.Has (run calls).conditions c) ∧
    ((run calls).isEmpty = true ↔ (run calls).conditions = []) := by
  refine ⟨fun a => ⟨under_run calls a, ?_, under_without _ a⟩, fun as => ⟨?_, ?_, under_takeAll _ as⟩,
    apart_conditions _, fun c hc => ?_, fun a c hc => ?_, isEmpty_iff⟩
  · exact (under_without ..).trans (if_pos rfl)
  · rw [takeAll_fst, show (run calls).under = _ from funext (under_run calls)]
  · rw [List.eq_nil_iff_forall_not_mem]
    intro c hc
    obtain ⟨a, ha, hc⟩ := mem_takeAll.1 hc
    rw [under_takeAll, if_pos ha] at hc
    exact List.not_mem_nil hc
  · obtain ⟨a, ha⟩ := mem_conditions hc
    rw [under_run] at ha
    exact ⟨a, Condition.mem_firsts ha⟩
  · refine (Condition.has_firsts hc).trans fun d hd => ?_
    rw [← under_run] at hd
    exact has_conditions hd

/-- A condition that comes twice under `a`, an alias that is named twice, and another condition under `a` afterwards. -/
def errands : List Call :=
  [.add "a" (.columnIs ⟨"a", "s"⟩ "1"), .add "b" (.columnIs ⟨"b", "s"⟩ "1"), .add "a" (.columnIs ⟨"a", "s"⟩ "1"),
    .takeAll ["a", "a"], .add "a" (.columnIs ⟨"a", "o"⟩ "2")]

/-- What was added since its alias was removed is answered once, in the order of the aliases that are asked for, and
then is gone. -/
theorem errands_conserves :
    ((run errands).takeAll ["b", "a", "b"]).1 = [.columnIs ⟨"b", "s"⟩ "1", .columnIs ⟨"a", "o"⟩ "2"] ∧
    (((run errands).takeAll ["b", "a", "b"]).2.takeAll ["b", "a", "b"]).1 = [] ∧
    Condition.Has (run errands).conditions (.columnIs ⟨"b", "s"⟩ "1") ∧
    Condition.Has (run errands).conditions (.columnIs ⟨"a", "o"⟩ "2") := by
  obtain ⟨-, hremoved, -, -, hleft, -⟩ := run_conserves errands
  obtain ⟨hreturned, hagain, -⟩ := hremoved ["b", "a", "b"]
  exact ⟨hreturned.trans (by decide), hagain, hleft "b" _ (by decide), hleft "a" _ (by decide)⟩

end Constants
end Compile
end TripleSql
