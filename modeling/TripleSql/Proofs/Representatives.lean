/-
# One condition of each class

Equivalence of conditions is an equivalence relation (`equivalence_isEquivalent`). A list that conditions are pushed to
one by one ends as the list of those that have no equivalent one before them, in the order in which they came
(`distinct_eq_firsts`):

| pushed | the list |
| --- | --- |
| `a = b`, `c < d`, `b = a`, `a = b` | `a = b`, `c < d` |
| `c < d`, `d < c` | `c < d`, `d < c` |

What is left out has an equivalent that stays, so the list says as much as all that was pushed, whatever columns hold and
operators mean, provided that `=` is symmetric (`Reading.forall_mem_distinct`).
-/

import Mathlib.Data.List.Induction
import TripleSql.Proofs.Conditions

namespace TripleSql
namespace Sql
namespace Condition

/-- Which of two equivalent conditions is asked about does not matter. -/
theorem isEquivalent_symm {c d : Condition} (h : c.isEquivalent d = true) : d.isEquivalent c = true := by
  rw [isEquivalent_iff] at h ⊢
  exact h.imp Eq.symm fun ⟨hc, hd, hl, hr⟩ => ⟨hd, hc, hr.symm, hl.symm⟩

/-- **Being equivalent is an equivalence relation.** -/
theorem equivalence_isEquivalent : Equivalence fun c d : Condition => c.isEquivalent d = true where
  refl := isEquivalent_refl
  symm := isEquivalent_symm
  trans := isEquivalent_trans

/-- The conditions that have no equivalent one before them, in order. -/
def firsts (cs : List Condition) : List Condition :=
  (cs.zipIdx.filter fun e => !(cs.take e.2).any (·.isEquivalent e.1)).map (·.1)

/-- One more condition is a first one if none before it is equivalent. -/
theorem firsts_snoc (cs : List Condition) (c : Condition) :
    firsts (cs ++ [c]) = if cs.any (·.isEquivalent c) then firsts cs else firsts cs ++ [c] := by
  have hbefore : (cs.zipIdx.filter fun e => !((cs ++ [c]).take e.2).any (·.isEquivalent e.1)) =
      cs.zipIdx.filter fun e => !(cs.take e.2).any (·.isEquivalent e.1) := by
    refine List.filter_congr fun e he => ?_
    have hlt := List.snd_lt_of_mem_zipIdx he
    rw [List.take_append_of_le_length (by omega)]
  rw [firsts, List.zipIdx_append, List.filter_append, List.map_append, hbefore, ← firsts]
  split <;> simp_all

/-- A list and its first conditions have equivalents of the same conditions. -/
theorem has_distinct_iff {cs : List Condition} {c : Condition} : Has (distinct cs) c ↔ Has cs c :=
  ⟨fun h => h.mono fun _ => mem_distinct, fun h => h.trans fun _ => has_distinct⟩

/-- The last condition of a list is pushed last. -/
theorem distinct_snoc (cs : List Condition) (c : Condition) : distinct (cs ++ [c]) = push (distinct cs) c :=
  List.foldl_append

/-- **Pushing one by one keeps the first condition of each class,** in order. -/
theorem distinct_eq_firsts (cs : List Condition) : distinct cs = firsts cs := by
  induction cs using List.reverseRecOn with
  | nil => rfl
  | append_singleton cs c ih =>
    have hany : (distinct cs).any (·.isEquivalent c) = cs.any (·.isEquivalent c) := by
      rw [Bool.eq_iff_iff, List.any_eq_true, List.any_eq_true]
      exact has_distinct_iff
    rw [distinct_snoc, push, hany, firsts_snoc, ih]

/-- The first conditions of their kinds are conditions of the list. -/
theorem mem_firsts {cs : List Condition} {c : Condition} (h : c ∈ firsts cs) : c ∈ cs :=
  mem_distinct (distinct_eq_firsts cs ▸ h)

/-- Of each kind there is a first one. -/
theorem has_firsts {cs : List Condition} {c : Condition} (h : c ∈ cs) : Has (firsts cs) c :=
  distinct_eq_firsts cs ▸ has_distinct h

/-- No two conditions of the list are equivalent. -/
def Apart (cs : List Condition) : Prop := cs.Pairwise fun c d => c.isEquivalent d = false

instance : DecidablePred Apart := fun cs =>
  inferInstanceAs (Decidable (cs.Pairwise fun c d => c.isEquivalent d = false))

/-- Pushing keeps conditions apart. -/
theorem apart_push {cs : List Condition} (h : Apart cs) (c : Condition) : Apart (push cs c) := by
  unfold push
  split
  · exact h
  · next hany =>
    refine List.pairwise_append.2 ⟨h, List.pairwise_singleton .., fun d hd e he => ?_⟩
    obtain rfl := List.mem_singleton.1 he
    exact Bool.eq_false_iff.2 fun hde => hany (List.any_eq_true.2 ⟨d, hd, hde⟩)

/-- **Pushing keeps a list free of equivalent conditions.** -/
theorem apart_pushAll {cs : List Condition} (h : Apart cs) (ds : List Condition) : Apart (pushAll cs ds) := by
  induction ds generalizing cs with
  | nil => exact h
  | cons d ds ih => exact ih (apart_push h d)

/-- What is kept of a list is apart. -/
theorem apart_distinct (cs : List Condition) : Apart (distinct cs) := apart_pushAll .nil cs

end Condition

/-- **What conditions may mean:** what each column holds, what each text stands for, and what the operators relate. `=` is
symmetric; of the other operators nothing is known. -/
structure Reading (α : Type) where
  column : Column → α
  literal : String → α
  relates : String → α → α → Prop
  symm : ∀ {x y : α}, relates "=" x y → relates "=" y x

namespace Reading

variable {α : Type} (M : Reading α)

/-- What an operand stands for. -/
def value : Operand → α
  | .column c => M.column c
  | .literal x => M.literal x

/-- The operator relates the two sides. -/
def Holds (c : Condition) : Prop := M.relates c.operator (M.value c.left) (M.value c.right)

/-- **Equivalent conditions hold alike** under every reading in which equality is symmetric. -/
theorem holds_of_isEquivalent {c d : Condition} (h : c.isEquivalent d = true) (hc : M.Holds c) : M.Holds d := by
  rcases Condition.isEquivalent_iff.1 h with rfl | ⟨hco, hdo, hl, hr⟩
  · exact hc
  · rw [Holds, hco, hl, hr] at hc
    rw [Holds, hdo]
    exact M.symm hc

/-- **Conditions say as much as the first ones of their classes.** -/
theorem forall_mem_distinct (cs : List Condition) :
    (∀ c ∈ Condition.distinct cs, M.Holds c) ↔ ∀ c ∈ cs, M.Holds c := by
  constructor
  · intro h c hc
    obtain ⟨d, hd, hdc⟩ := Condition.has_distinct hc
    exact M.holds_of_isEquivalent hdc (h d hd)
  · exact fun h c hc => h c (Condition.mem_distinct hc)

end Reading
end Sql
end TripleSql
