/-
# Which triple patterns are reached

A variable becomes known if it is known at the start or is a variable of a triple pattern that has one which becomes
known (`BecomesKnown`). `arrange` takes the triple patterns one by one, each time the earliest that is reached. What it
takes makes known all that becomes known (`becomesKnown_iff_mem`), and what it leaves are the triple patterns without a
variable that becomes known, in the order in which they stand (`arrange_snd`):

| known | triple patterns | taken, in order | left |
| --- | --- | --- | --- |
| `a` | `?b p ?c`, `?a p ?b`, `?d p ?e` | `?a p ?b`, `?b p ?c` | `?d p ?e` |

Neither depends on the order in which triple patterns are written.
-/

import TripleSql.Proofs.JoinOrder

namespace TripleSql
namespace Compile

open Pattern

/-- The variable is known, or a triple pattern connects it with one that becomes known. -/
inductive BecomesKnown (known : List String) (ts : List Triple) : String → Prop
  | start {v : String} (h : v ∈ known) : BecomesKnown known ts v
  | shared {t : Triple} {u v : String} (ht : t ∈ ts) (hu : u ∈ t.vars) (h : BecomesKnown known ts u)
    (hv : v ∈ t.vars) : BecomesKnown known ts v

/-- The triple pattern has a variable that becomes known. -/
def IsReached (known : List String) (ts : List Triple) (t : Triple) : Prop :=
  ∃ v ∈ t.vars, BecomesKnown known ts v

variable {known known' : List String} {ts ts' : List Triple} {t : Triple} {v : String}

theorem BecomesKnown.mono (h : BecomesKnown known ts v) (hk : ∀ v ∈ known, v ∈ known') (ht : ∀ t ∈ ts, t ∈ ts') :
    BecomesKnown known' ts' v := by
  induction h with
  | start h => exact .start (hk _ h)
  | shared hts hu _ hv ih => exact .shared (ht _ hts) hu ih hv

theorem reaches_iff : reaches known t = true ↔ ∃ v ∈ t.vars, v ∈ known := by
  simp only [reaches, List.any_eq_true, List.contains_iff_mem]

/-- Where no triple pattern is reached nothing becomes known. -/
theorem BecomesKnown.mem_of_find?_eq_none (hf : ts.find? (reaches known) = none) (h : BecomesKnown known ts v) :
    v ∈ known := by
  induction h with
  | start h => exact h
  | shared ht hu _ _ ih => exact absurd (reaches_iff.2 ⟨_, hu, ih⟩) (List.find?_eq_none.1 hf _ ht)

/-- **A triple pattern that is reached makes its variables known** and is not needed any more. -/
theorem becomesKnown_iff_of_find? (hf : ts.find? (reaches known) = some t) :
    BecomesKnown known ts v ↔ BecomesKnown (known ++ t.vars) (ts.eraseP (reaches known)) v := by
  have hperm := perm_cons_eraseP hf
  constructor
  · intro h
    induction h with
    | start h => exact .start (List.mem_append_left _ h)
    | shared hts hu _ hv ih =>
      rcases List.mem_cons.1 (hperm.symm.subset hts) with rfl | hts
      · exact .start (List.mem_append_right _ hv)
      · exact .shared hts hu ih hv
  · intro h
    induction h with
    | start h =>
      rcases List.mem_append.1 h with h | h
      · exact .start h
      · obtain ⟨u, hu, hk⟩ := reaches_iff.1 (List.find?_some hf)
        exact .shared (List.mem_of_find?_eq_some hf) hu (.start hk) h
    | shared hts hu _ hv ih => exact .shared (hperm.subset (List.mem_cons_of_mem _ hts)) hu ih hv

/-- **What is taken makes known all that becomes known.** -/
theorem becomesKnown_iff_mem :
    BecomesKnown known ts v ↔ v ∈ known ++ (arrange known ts).1.flatMap Triple.vars := by
  induction known, ts using arrange.induct with
  | case1 known ts hf =>
    rw [arrange_of_none hf, List.flatMap_nil, List.append_nil]
    exact ⟨fun h => h.mem_of_find?_eq_none hf, .start⟩
  | case2 known ts t hf ih =>
    rw [becomesKnown_iff_of_find? hf, ih, arrange_of_some hf, List.flatMap_cons, List.append_assoc]

instance : Decidable (BecomesKnown known ts v) := decidable_of_iff _ becomesKnown_iff_mem.symm

instance : DecidablePred (IsReached known ts) := fun t =>
  inferInstanceAs (Decidable (∃ v ∈ t.vars, BecomesKnown known ts v))

/-- **What is left are the triple patterns that are not reached,** in the order in which they stand. -/
theorem arrange_snd : (arrange known ts).2 = ts.filter (¬ IsReached known ts ·) := by
  induction known, ts using arrange.induct with
  | case1 known ts hf =>
    rw [arrange_of_none hf]
    refine (List.filter_eq_self.2 fun t ht => decide_eq_true ?_).symm
    rintro ⟨v, hv, h⟩
    exact List.find?_eq_none.1 hf t ht (reaches_iff.2 ⟨v, hv, h.mem_of_find?_eq_none hf⟩)
  | case2 known ts t hf ih =>
    have hreached : IsReached known ts t := by
      obtain ⟨v, hv, hk⟩ := reaches_iff.1 (List.find?_some hf)
      exact ⟨v, hv, .start hk⟩
    have herase : (ts.eraseP (reaches known)).filter (¬ IsReached known ts ·) =
        ts.filter (¬ IsReached known ts ·) := by
      obtain ⟨hk, l, r, rfl, hl⟩ := List.find?_eq_some_iff_append.1 hf
      rw [List.eraseP_append_right _ fun b hb => by simpa using hl b hb, List.eraseP_cons_of_pos hk,
        List.filter_append, List.filter_append, List.filter_cons_of_neg (by simpa using hreached)]
    rw [arrange_of_some hf, ih, ← herase]
    refine List.filter_congr fun u _ => decide_eq_decide.2 (not_congr ?_)
    exact exists_congr fun v => and_congr_right fun _ => (becomesKnown_iff_of_find? hf).symm

/-- Nothing is left if every triple pattern is reached. -/
theorem arrange_snd_eq_nil_iff : (arrange known ts).2 = [] ↔ ∀ t ∈ ts, IsReached known ts t := by
  rw [arrange_snd, List.filter_eq_nil_iff]
  simp only [decide_not, Bool.not_eq_true', decide_eq_false_iff_not, Decidable.not_not]

/-- **The order in which triple patterns are written does not matter** for what is reached. -/
theorem isReached_congr (h : ∀ t, t ∈ ts ↔ t ∈ ts') : IsReached known ts t ↔ IsReached known ts' t :=
  exists_congr fun _ => and_congr_right fun _ =>
    ⟨fun hk => hk.mono (fun _ => id) fun t => (h t).1, fun hk => hk.mono (fun _ => id) fun t => (h t).2⟩

end Compile
end TripleSql
