/-
# Lists of conditions up to equivalence

A list that is kept free of equivalent conditions (`Condition.push`) does not hold every condition that was pushed,
but an equivalent one of each (`has_pushAll`), nothing that was not pushed (`mem_pushAll`), and nothing twice
(`nodup_pushAll`).

Constants wait under aliases. What is left of them at the end is said by what waits under each alias
(`conditions_congr`), in whatever order it came.
-/

import TripleSql.Compile.Constants
import TripleSql.Proofs.Lists

namespace TripleSql
namespace Sql
namespace Condition

/-- **Equivalent conditions** are equal, or equalities with their sides exchanged. -/
theorem isEquivalent_iff {c d : Condition} :
    c.isEquivalent d = true ↔
      c = d ∨ c.operator = "=" ∧ d.operator = "=" ∧ c.left = d.right ∧ c.right = d.left := by
  simp [isEquivalent, and_assoc]

theorem isEquivalent_refl (c : Condition) : c.isEquivalent c = true := isEquivalent_iff.2 (.inl rfl)

/-- An equality that is exchanged twice is itself again. -/
theorem isEquivalent_trans {c d e : Condition} (h₁ : c.isEquivalent d = true)
    (h₂ : d.isEquivalent e = true) : c.isEquivalent e = true := by
  rcases c with ⟨cl, co, cr⟩
  rcases d with ⟨dl, do', dr⟩
  rcases e with ⟨el, eo, er⟩
  simp only [isEquivalent_iff, mk.injEq] at h₁ h₂ ⊢
  grind

/-- The list has the condition or an equivalent one. -/
def Has (cs : List Condition) (c : Condition) : Prop := ∃ d ∈ cs, d.isEquivalent c = true

/-- What is in a list is had by it. -/
theorem has_of_mem {cs : List Condition} {c : Condition} (h : c ∈ cs) : Has cs c :=
  ⟨c, h, isEquivalent_refl c⟩

/-- A longer list has what a shorter one has. -/
theorem Has.mono {cs ds : List Condition} {c : Condition} (h : Has cs c) (hs : ∀ e ∈ cs, e ∈ ds) :
    Has ds c := by
  obtain ⟨d, hd, hdc⟩ := h
  exact ⟨d, hs d hd, hdc⟩

/-- A condition follows its equivalents from list to list. -/
theorem Has.trans {cs ds : List Condition} {c : Condition} (h : Has cs c) (hs : ∀ e ∈ cs, Has ds e) :
    Has ds c := by
  obtain ⟨d, hd, hdc⟩ := h
  obtain ⟨e, he, hed⟩ := hs d hd
  exact ⟨e, he, isEquivalent_trans hed hdc⟩

/-- An equality is there with its sides in either order. -/
theorem Has.columnsEqual_swap {cs : List Condition} {a b : Column} (h : Has cs (columnsEqual a b)) :
    Has cs (columnsEqual b a) := by
  obtain ⟨d, hd, hdc⟩ := h
  exact ⟨d, hd, isEquivalent_trans hdc (isEquivalent_iff.2 (.inr ⟨rfl, rfl, rfl, rfl⟩))⟩

/-- Two lists together have what either has. -/
theorem has_append {cs ds : List Condition} {c : Condition} :
    Has (cs ++ ds) c ↔ Has cs c ∨ Has ds c := by
  simp only [Has, List.mem_append, or_and_right, exists_or]

/-- Nothing but the condition is added by pushing it. -/
theorem mem_push {cs : List Condition} {c d : Condition} (h : d ∈ push cs c) : d ∈ cs ∨ d = c := by
  unfold push at h
  split at h
  · exact .inl h
  · simpa using h

/-- Nothing is lost by pushing a condition. -/
theorem mem_push_of_mem {cs : List Condition} {d : Condition} (h : d ∈ cs) (c : Condition) :
    d ∈ push cs c := by
  unfold push
  split
  · exact h
  · exact List.mem_append_left _ h

/-- A condition that is pushed is had afterwards, by itself or by an equivalent one. -/
theorem has_push_self (cs : List Condition) (c : Condition) : Has (push cs c) c := by
  unfold push
  split
  · next h => exact List.any_eq_true.1 h
  · exact has_of_mem (by simp)

/-- Nothing but some conditions is added by pushing them. -/
theorem mem_pushAll {cs ds : List Condition} {c : Condition} (h : c ∈ pushAll cs ds) :
    c ∈ cs ∨ c ∈ ds := by
  induction ds generalizing cs with
  | nil => exact .inl h
  | cons d ds ih =>
    rcases ih h with h | h
    · rcases mem_push h with h | rfl
      · exact .inl h
      · exact .inr (List.mem_cons_self ..)
    · exact .inr (List.mem_cons_of_mem _ h)

/-- Nothing is lost by pushing conditions. -/
theorem mem_pushAll_of_mem {cs : List Condition} {c : Condition} (h : c ∈ cs) (ds : List Condition) :
    c ∈ pushAll cs ds := by
  induction ds generalizing cs with
  | nil => exact h
  | cons d ds ih => exact ih (mem_push_of_mem h d)

/-- **Nothing that is pushed is lost** up to equivalence. -/
theorem has_pushAll {cs ds : List Condition} {c : Condition} (h : c ∈ ds) : Has (pushAll cs ds) c := by
  induction ds generalizing cs with
  | nil => cases h
  | cons d ds ih =>
    rcases List.mem_cons.1 h with rfl | h
    · exact (has_push_self cs c).mono fun e he => mem_pushAll_of_mem he ds
    · exact ih h

/-- Only conditions of a list are kept of it. -/
theorem mem_distinct {cs : List Condition} {c : Condition} (h : c ∈ distinct cs) : c ∈ cs := by
  simpa using mem_pushAll h

/-- Of each condition of a list one is kept, itself or an equivalent one. -/
theorem has_distinct {cs : List Condition} {c : Condition} (h : c ∈ cs) : Has (distinct cs) c :=
  has_pushAll h

/-- Pushing puts nothing into a list twice. -/
theorem nodup_push {cs : List Condition} (h : cs.Nodup) (e : Condition) : (push cs e).Nodup := by
  unfold push
  split
  · exact h
  · next hany =>
    refine List.nodup_append.2 ⟨h, List.pairwise_singleton .., fun d hd d' he hdd => hany ?_⟩
    exact List.any_eq_true.2 ⟨d, hd, (hdd.trans (List.mem_singleton.1 he)) ▸ isEquivalent_refl d⟩

/-- **A list that conditions are pushed to has each of them once.** -/
theorem nodup_pushAll {cs : List Condition} (h : cs.Nodup) (ds : List Condition) : (pushAll cs ds).Nodup := by
  induction ds generalizing cs with
  | nil => exact h
  | cons d ds ih => exact ih (nodup_push h d)

/-- Nothing is kept twice. -/
theorem nodup_distinct (cs : List Condition) : (distinct cs).Nodup := nodup_pushAll .nil cs

/-- A condition reads the tables of the columns on its two sides. -/
theorem mem_aliases {c : Condition} {a : String} :
    a ∈ c.aliases ↔ c.left.alias? = some a ∨ c.right.alias? = some a := by
  simp [aliases]

/-- A condition is in a scope if every table that it reads is. -/
theorem isScopedTo_iff {c : Condition} {as : List String} :
    c.isScopedTo as = true ↔ ∀ a ∈ c.aliases, a ∈ as := by
  simp [isScopedTo]

/-- Equivalent conditions read the same tables. -/
theorem mem_aliases_congr {c d : Condition} (h : c.isEquivalent d = true) (a : String) :
    a ∈ c.aliases ↔ a ∈ d.aliases := by
  rcases isEquivalent_iff.1 h with rfl | ⟨-, -, hl, hr⟩
  · rfl
  · rw [mem_aliases, mem_aliases, hl, hr, or_comm]

/-- Equivalent conditions are in the same scopes. -/
theorem isScopedTo_congr {c d : Condition} (h : c.isEquivalent d = true) (as : List String) :
    c.isScopedTo as = d.isScopedTo as := by
  rw [Bool.eq_iff_iff, isScopedTo_iff, isScopedTo_iff]
  simp only [mem_aliases_congr h]

end Condition
end Sql

namespace Compile
namespace Constants

open Sql

/-- What waits under an alias are the entries with this alias. -/
theorem mem_under {k : Constants} {a : String} {c : Condition} :
    c ∈ k.under a ↔ (a, c) ∈ k.entries := by
  simp only [under, List.mem_map, List.mem_filter, beq_iff_eq]
  constructor
  · rintro ⟨e, ⟨he, rfl⟩, rfl⟩
    exact he
  · intro h
    exact ⟨(a, c), ⟨h, rfl⟩, rfl⟩

/-- What is taken under some aliases waited under one of them. -/
theorem mem_takeAll {k : Constants} {as : List String} {c : Condition} :
    c ∈ (k.takeAll as).1 ↔ ∃ a ∈ as, c ∈ k.under a := by
  induction as generalizing k with
  | nil => simp [takeAll]
  | cons b as ih =>
    simp only [takeAll, List.mem_append, ih, under_without, List.mem_cons, exists_eq_or_imp]
    by_cases hb : c ∈ k.under b
    · simp [hb]
    · refine or_congr_right (exists_congr fun a => and_congr_right fun _ => ?_)
      split
      · next h => subst h; simp [hb]
      · rfl

/-- **Taking leaves nothing under the taken aliases** and touches no other alias. -/
theorem under_takeAll (k : Constants) (as : List String) (b : String) :
    (k.takeAll as).2.under b = if b ∈ as then [] else k.under b := by
  induction as generalizing k with
  | nil => simp [takeAll]
  | cons a as ih =>
    rw [takeAll, ih, under_without]
    by_cases h : b = a <;> by_cases h' : b ∈ as <;> simp [h, h']

/-- What is left over at the end waits under some alias. -/
theorem mem_conditions {k : Constants} {c : Condition} (h : c ∈ k.conditions) :
    ∃ a, c ∈ k.under a := by
  obtain ⟨e, he, rfl⟩ := List.mem_map.1 (Condition.mem_distinct h)
  exact ⟨e.1, mem_under.2 ((List.mem_mergeSort ..).1 he)⟩

/-- Of what waits under an alias something equivalent is left over at the end. -/
theorem has_conditions {k : Constants} {a : String} {c : Condition} (h : c ∈ k.under a) :
    Condition.Has k.conditions c :=
  Condition.has_distinct (List.mem_map.2 ⟨(a, c), (List.mem_mergeSort ..).2 (mem_under.1 h), rfl⟩)

/-- **What is left at the end is said by what waits under each alias.** -/
theorem conditions_congr {k k' : Constants} (h : ∀ a, k.under a = k'.under a) : k.conditions = k'.conditions := by
  have hpairs : ∀ (k : Constants) a, k.entries.filter (·.1 == a) = (k.under a).map (a, ·) := fun k a => by
    rw [under, List.map_map]
    refine (List.map_congr_left fun e he => ?_).trans (List.map_id _) |>.symm
    exact Prod.ext (beq_iff_eq.1 (List.mem_filter.1 he).2).symm rfl
  have hsorted := @mergeSort_eq_of_filter_eq _ k.entries k'.entries fun a => by rw [hpairs, hpairs, h]
  rw [conditions, conditions, hsorted]

end Constants
end Compile
end TripleSql
