/-
# Lists in step, look-ups, and lists sorted by names

Two lists are in step if what stands at a place of one is related to what stands there in the other. A look-up in a list
of pairs gives a pair of the list. Sorting a list of pairs by their names keeps the order of those that have one name,
so the sorted list is said by the pairs of each name (`mergeSort_eq_of_filter_eq`).
-/

import Mathlib.Data.List.Forall2

namespace TripleSql

variable {α β γ : Type} {r : α → β → Prop} {as : List α} {bs : List β}

/-- What is on the right has its partner on the left. -/
theorem exists_left_of_forall₂ (h : List.Forall₂ r as bs) {b : β} (hb : b ∈ bs) : ∃ a ∈ as, r a b := by
  induction h with
  | nil => cases hb
  | cons hab _ ih =>
    rcases List.mem_cons.1 hb with rfl | hb
    · exact ⟨_, List.mem_cons_self .., hab⟩
    · obtain ⟨a, ha, hr⟩ := ih hb
      exact ⟨a, List.mem_cons_of_mem _ ha, hr⟩

/-- What is on the left has its partner on the right. -/
theorem exists_right_of_forall₂ (h : List.Forall₂ r as bs) {a : α} (ha : a ∈ as) : ∃ b ∈ bs, r a b :=
  exists_left_of_forall₂ h.flip ha

/-- What stands at a place of the first list has a counterpart there. -/
theorem exists_getElem?_of_forall₂ (h : List.Forall₂ r as bs) {i : Nat} {a : α} (ha : as[i]? = some a) :
    ∃ b, bs[i]? = some b ∧ r a b := by
  induction h generalizing i with
  | nil => cases ha
  | cons hab _ ih =>
    cases i with
    | zero =>
      obtain rfl := Option.some.inj ha
      exact ⟨_, rfl, hab⟩
    | succ i => exact ih ha

/-- Partners are among those of their side. -/
theorem forall₂_and_mem (h : List.Forall₂ r as bs) : List.Forall₂ (fun a b => r a b ∧ b ∈ bs) as bs := by
  induction h with
  | nil => exact .nil
  | cons hab _ ih =>
    exact .cons ⟨hab, List.mem_cons_self ..⟩ (ih.imp fun _ _ h => ⟨h.1, List.mem_cons_of_mem _ h.2⟩)

/-- Partners that can be chosen one by one can be chosen as a list. -/
theorem exists_forall₂ (h : ∀ a ∈ as, ∃ b, r a b) : ∃ bs, List.Forall₂ r as bs := by
  induction as with
  | nil => exact ⟨[], .nil⟩
  | cons a as ih =>
    obtain ⟨b, hb⟩ := h a (List.mem_cons_self ..)
    obtain ⟨bs, hbs⟩ := ih fun a ha => h a (List.mem_cons_of_mem _ ha)
    exact ⟨b :: bs, .cons hb hbs⟩

/-- Partners with the same value make lists of the same values. -/
theorem map_eq_map_of_forall₂ {f : α → γ} {g : β → γ} (h : List.Forall₂ (fun a b => f a = g b) as bs) :
    as.map f = bs.map g := by
  induction h with
  | nil => rfl
  | cons hab _ ih => rw [List.map_cons, List.map_cons, hab, ih]

/-- What is in the list of one entry alone is there as often as in all of the lists. -/
theorem count_flatMap_eq [DecidableEq β] {f : α → List β} {l : List α} {a : α} {b : β} (hl : l.Nodup) (ha : a ∈ l)
    (h : ∀ a' ∈ l, b ∈ f a' → a' = a) : (l.flatMap f).count b = (f a).count b := by
  obtain ⟨l₁, l₂, rfl⟩ := List.append_of_mem ha
  obtain ⟨hmiddle, -⟩ := List.nodup_cons.1 (List.perm_middle.nodup_iff.1 hl)
  rw [List.mem_append, not_or] at hmiddle
  have hnone : ∀ l' ⊆ l₁ ++ a :: l₂, a ∉ l' → (l'.flatMap f).count b = 0 := fun l' hsub hnot =>
    List.count_eq_zero.2 fun hmem => by
      obtain ⟨a', ha', hb⟩ := List.mem_flatMap.1 hmem
      exact hnot (h a' (hsub ha') hb ▸ ha')
  rw [List.flatMap_append, List.flatMap_cons, List.count_append, List.count_append,
    hnone l₁ (List.subset_append_left ..) hmiddle.1, hnone l₂ (fun _ hx => by simp [hx]) hmiddle.2]
  omega

/-- The list up to a place, what stands there, and the list after it. -/
theorem eq_take_append_cons {l : List α} {i : Nat} {a : α} (h : l[i]? = some a) :
    l = l.take i ++ a :: l.drop (i + 1) := by
  obtain ⟨hlt, rfl⟩ := List.getElem?_eq_some_iff.1 h
  rw [← List.drop_eq_getElem_cons hlt, List.take_append_drop]

/-- A list has the items of its beginnings at the same places. -/
theorem getElem?_of_prefix {l l' : List α} {i : Nat} {a : α} (h : l <+: l') (ha : l[i]? = some a) : l'[i]? = some a := by
  obtain ⟨r, rfl⟩ := h
  rw [List.getElem?_append_left (List.getElem?_eq_some_iff.1 ha).1, ha]

/-- What is read back item by item is read back as a list. -/
theorem mapM_map_eq_some {write : α → β} {read : β → Option α} (h : ∀ a, read (write a) = some a)
    (as : List α) : (as.map write).mapM read = some as := by
  induction as with
  | nil => rfl
  | cons a as ih => simp [h, ih]

/-- What is found under a key is there with the key. -/
theorem mem_of_lookup [BEq α] [LawfulBEq α] {l : List (α × β)} {a : α} {b : β} (h : l.lookup a = some b) :
    (a, b) ∈ l := by
  obtain ⟨l₁, l₂, rfl, -⟩ := List.lookup_eq_some_iff.1 h
  exact List.mem_append_right _ (List.mem_cons_self ..)

/-- Where nothing is found under a key, nothing is there with the key. -/
theorem not_mem_of_lookup [BEq α] [LawfulBEq α] {l : List (α × β)} {a : α} (h : l.lookup a = none) (b : β) :
    (a, b) ∉ l := fun hm => by
  simpa using List.lookup_eq_none_iff.1 h _ hm

/-- Values may be changed before or after they are looked up. -/
theorem lookup_map_snd [BEq α] (f : β → γ) (l : List (α × β)) (a : α) :
    (l.map fun e => (e.1, f e.2)).lookup a = (l.lookup a).map f := by
  induction l with
  | nil => rfl
  | cons e l ih =>
    rw [List.map_cons, List.lookup_cons, List.lookup_cons, ih]
    cases a == e.1 <;> rfl

/-- A look-up does not depend on what the keys are called. -/
theorem lookup_map_fst [BEq α] [LawfulBEq α] [BEq γ] [LawfulBEq γ] {f : α → γ} (hf : f.Injective) (l : List (α × β))
    (a : α) : (l.map fun e => (f e.1, e.2)).lookup (f a) = l.lookup a := by
  induction l with
  | nil => rfl
  | cons e l ih =>
    have heq : (f a == f e.1) = (a == e.1) := by rw [Bool.eq_iff_iff, beq_iff_eq, beq_iff_eq, hf.eq_iff]
    rw [List.map_cons, List.lookup_cons, List.lookup_cons, ih, heq]

/-- Membership is kept where different things stay different. -/
theorem contains_map_of_injective [BEq α] [LawfulBEq α] [BEq γ] [LawfulBEq γ] {f : α → γ} (hf : f.Injective) (l : List α)
    (a : α) : (l.map f).contains (f a) = l.contains a := by
  rw [Bool.eq_iff_iff, List.contains_iff_mem, List.contains_iff_mem, List.mem_map_of_injective hf]

/-- Names side by side with what is looked up for them give the same look-ups. -/
theorem lookup_zip [BEq α] [LawfulBEq α] {l : List (α × β)} (h : List.Forall₂ (fun a b => l.lookup a = some b) as bs)
    {a : α} (ha : l.lookup a ≠ none → a ∈ as) : (as.zip bs).lookup a = l.lookup a := by
  induction h with
  | nil =>
    by_contra hne
    exact List.not_mem_nil (ha (Ne.symm hne))
  | @cons b c as bs hbc _ ih =>
    rw [List.zip_cons_cons, List.lookup_cons]
    cases hab : a == b with
    | true =>
      obtain rfl := beq_iff_eq.1 hab
      exact hbc.symm
    | false =>
      refine ih fun hne => (List.mem_cons.1 (ha hne)).resolve_left ?_
      rintro rfl
      rw [beq_self_eq_true] at hab
      cases hab

section Sorted

variable {β : Type} {es fs : List (String × β)}

/-- The order of entries by their names is transitive. -/
theorem namesLe_trans (a b c : String × β) (h₁ : decide (a.1 ≤ b.1) = true) (h₂ : decide (b.1 ≤ c.1) = true) :
    decide (a.1 ≤ c.1) = true :=
  decide_eq_true (String.le_trans (of_decide_eq_true h₁) (of_decide_eq_true h₂))

/-- The order of entries by their names is total. -/
theorem namesLe_total (a b : String × β) : (decide (a.1 ≤ b.1) || decide (b.1 ≤ a.1)) = true := by
  simpa using String.le_total a.1 b.1

/-- **Sorting pairs by their names keeps the order** of those that have one name. -/
theorem filter_mergeSort (es : List (String × β)) (a : String) :
    (es.mergeSort fun e f => e.1 ≤ f.1).filter (·.1 == a) = es.filter (·.1 == a) := by
  have hsame : (es.filter (·.1 == a)).Pairwise fun e f => decide (e.1 ≤ f.1) = true :=
    List.pairwise_of_forall_mem_list fun e he f hf => by
      rw [beq_iff_eq.1 (List.mem_filter.1 he).2, beq_iff_eq.1 (List.mem_filter.1 hf).2]
      exact decide_eq_true (String.le_refl a)
  have hsub := (List.sublist_mergeSort namesLe_trans namesLe_total hsame List.filter_sublist).filter (·.1 == a)
  rw [List.filter_filter] at hsub
  simp only [Bool.and_self] at hsub
  exact (hsub.eq_of_length ((List.mergeSort_perm es _).filter _).length_eq.symm).symm

/-- Two sorted lists of pairs are one if for every name they have the same pairs in the same order. -/
theorem eq_of_filter_eq (he : es.Pairwise (·.1 ≤ ·.1)) (hf : fs.Pairwise (·.1 ≤ ·.1))
    (h : ∀ a, es.filter (·.1 == a) = fs.filter (·.1 == a)) : es = fs := by
  have hmem : ∀ e, e ∈ es ↔ e ∈ fs := fun e => by
    have := congrArg (e ∈ ·) (h e.1)
    simpa [List.mem_filter] using this
  induction es generalizing fs with
  | nil => exact (List.eq_nil_iff_forall_not_mem.2 fun e he => by simpa using (hmem e).2 he).symm
  | cons e es ih =>
    cases fs with
    | nil => simpa using (hmem e).1 (List.mem_cons_self ..)
    | cons f fs =>
      obtain ⟨hefirst, hes⟩ := List.pairwise_cons.1 he
      obtain ⟨hffirst, hfs⟩ := List.pairwise_cons.1 hf
      have hle : e.1 ≤ f.1 := by
        rcases List.mem_cons.1 ((hmem f).2 (List.mem_cons_self ..)) with rfl | hfe
        · exact String.le_refl _
        · exact hefirst f hfe
      have hge : f.1 ≤ e.1 := by
        rcases List.mem_cons.1 ((hmem e).1 (List.mem_cons_self ..)) with rfl | hef
        · exact String.le_refl _
        · exact hffirst e hef
      -- The two heads have the least name, so they are the first of their name in either list.
      have hname : f.1 = e.1 := String.le_antisymm hge hle
      have hhead := h e.1
      rw [List.filter_cons_of_pos (by simp), List.filter_cons_of_pos (by simp [hname])] at hhead
      obtain ⟨rfl, -⟩ := List.cons.inj hhead
      have htail : ∀ a, es.filter (·.1 == a) = fs.filter (·.1 == a) := fun a => by
        have := h a
        rw [List.filter_cons, List.filter_cons] at this
        split at this
        · exact (List.cons.inj this).2
        · exact this
      refine congrArg _ (ih hes hfs htail fun a => ?_)
      have := congrArg (a ∈ ·) (htail a.1)
      simpa [List.mem_filter] using this

/-- **A list of pairs is sorted by names in one way,** whatever the order in which the names came. -/
theorem mergeSort_eq_of_filter_eq (h : ∀ a, es.filter (·.1 == a) = fs.filter (·.1 == a)) :
    (es.mergeSort fun e f => e.1 ≤ f.1) = fs.mergeSort fun e f => e.1 ≤ f.1 := by
  have hsorted : ∀ es : List (String × β), (es.mergeSort fun e f => e.1 ≤ f.1).Pairwise (·.1 ≤ ·.1) := fun es =>
    (List.pairwise_mergeSort namesLe_trans namesLe_total es).imp of_decide_eq_true
  refine eq_of_filter_eq (hsorted es) (hsorted fs) fun a => ?_
  rw [filter_mergeSort, filter_mergeSort, h]

end Sorted

end TripleSql
