/-
# Selections

A selection takes one entry from each multiset of a list (`selections`). Cross products of tables and the choices of
stored rows are selections; each is counted as often as it can be made.

The order of the list matters for the selections, but not for what is gathered from them by a function that does not
care for the order of its argument (`bind_selections_perm`).

A multiset that is padded has an entry in any case: the given one if there is no other (`padded`).
-/

import Mathlib.Data.Multiset.Bind

namespace TripleSql

variable {α β γ : Type}

/-- All ways to take one entry from each multiset. -/
def selections : List (Multiset α) → Multiset (List α)
  | [] => {[]}
  | M :: Ms => M.bind fun a => (selections Ms).map (a :: ·)

/-- A selection has one choice from each. -/
theorem mem_selections {l : List α} {Ms : List (Multiset α)} :
    l ∈ selections Ms ↔ List.Forall₂ (· ∈ ·) l Ms := by
  induction Ms generalizing l with
  | nil => rw [selections, Multiset.mem_singleton, List.forall₂_nil_right_iff]
  | cons M Ms ih =>
    rw [selections, Multiset.mem_bind, List.forall₂_cons_right_iff]
    simp only [Multiset.mem_map, ih, eq_comm (b := l)]
    exact ⟨fun ⟨a, ha, l', hl, he⟩ => ⟨a, l', ha, hl, he⟩, fun ⟨a, l', ha, hl, he⟩ => ⟨a, ha, l', hl, he⟩⟩

/-- To select from one is to choose from it. -/
theorem selections_singleton (M : Multiset α) : selections [M] = M.map ([·]) := by
  simp [selections, Multiset.bind_singleton]

/-- Selections from two groups are made one after the other. -/
theorem selections_append (Ms Ns : List (Multiset α)) :
    selections (Ms ++ Ns) = (selections Ms).bind fun l => (selections Ns).map (l ++ ·) := by
  induction Ms with
  | nil => simp [selections]
  | cons M Ms ih =>
    simp only [List.cons_append, selections, ih, Multiset.map_bind, Multiset.bind_assoc, Multiset.bind_map,
      Multiset.map_map, Function.comp_def]

/-- Choices may be changed before or after they are selected. -/
theorem selections_map (f : α → β) (Ms : List (Multiset α)) :
    selections (Ms.map (Multiset.map f)) = (selections Ms).map (List.map f) := by
  induction Ms with
  | nil => rfl
  | cons M Ms ih =>
    simp only [List.map_cons, selections, ih, Multiset.map_bind, Multiset.bind_map, Multiset.map_map,
      Function.comp_def]

/-- Each multiset may be mapped in its own way. -/
theorem selections_map_map {ι : Type} (M : ι → Multiset α) (f : ι → α → β) (is : List ι) :
    selections (is.map fun i => (M i).map (f i)) = (selections (is.map M)).map (List.zipWith f is) := by
  induction is with
  | nil => rfl
  | cons i is ih =>
    simp only [List.map_cons, selections, ih, Multiset.map_bind, Multiset.bind_map, Multiset.map_map,
      Function.comp_def, List.zipWith_cons_cons]

/-- **The order of the multisets does not matter** where the order of what is taken does not. -/
theorem bind_selections_perm {as bs : List α} (h : as.Perm bs) (f : α → Multiset β) {F : List β → Multiset γ}
    (hF : ∀ {l l'}, l.Perm l' → F l = F l') :
    (selections (as.map f)).bind F = (selections (bs.map f)).bind F := by
  induction h generalizing F with
  | nil => rfl
  | cons a _ ih =>
    simp only [List.map_cons, selections, Multiset.bind_assoc, Multiset.bind_map]
    exact Multiset.bind_congr fun b _ => ih fun hl => hF (hl.cons b)
  | swap a b l =>
    simp only [List.map_cons, selections, Multiset.bind_assoc, Multiset.bind_map, Multiset.map_bind]
    rw [Multiset.bind_bind]
    exact Multiset.bind_congr fun c _ => Multiset.bind_congr fun d _ => Multiset.bind_congr fun l _ =>
      hF (.swap ..)
  | trans _ _ ih₁ ih₂ => exact (ih₁ hF).trans (ih₂ hF)

/-- The multiset, or the given entry alone if the multiset is empty. -/
def padded (a : α) (M : Multiset α) : Multiset α := if M.card = 0 then {a} else M

/-- What is changed has its stand-in changed, too. -/
theorem map_padded (f : α → β) (a : α) (M : Multiset α) : (padded a M).map f = padded (f a) (M.map f) := by
  rw [padded, padded, Multiset.card_map, apply_ite (Multiset.map f), Multiset.map_singleton]

end TripleSql
