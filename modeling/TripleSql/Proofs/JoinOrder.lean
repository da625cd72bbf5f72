/-
# The order in which triple patterns are joined

`joinOrder` lists the triple patterns of a graph pattern as they are joined when certain variables are known: the first
one, and after it each time the earliest one left that is reached. The order depends on which variables are known
and not on how they are listed (`joinOrder_congr`). Where every triple pattern is reached it is a rearrangement of the
graph pattern that keeps the first one in front (`joinOrder_perm`).
-/

import TripleSql.Compile.Fragment

namespace TripleSql
namespace Compile

open Pattern

/-- Where nothing more is reached, all that is left is stranded. -/
theorem arrange_of_none {known : List String} {ts : List Triple} (h : ts.find? (reaches known) = none) :
    arrange known ts = ([], ts) := by
  rw [arrange.eq_def]
  split
  · rfl
  · next hs => rw [h] at hs; cases hs

/-- The earliest triple pattern that is reached joins next, and its variables are known from then on. -/
theorem arrange_of_some {known : List String} {ts : List Triple} {t : Triple}
    (h : ts.find? (reaches known) = some t) :
    arrange known ts = (t :: (arrange (known ++ t.vars) (ts.eraseP (reaches known))).1,
      (arrange (known ++ t.vars) (ts.eraseP (reaches known))).2) := by
  rw [arrange.eq_def]
  split
  · next hn => rw [h] at hn; cases hn
  · next hs => rw [h] at hs; cases hs; rfl

/-- What is reached depends on which variables are known, not on their order. -/
theorem reaches_congr {known known' : List String} (h : ∀ v, v ∈ known ↔ v ∈ known') :
    reaches known = reaches known' := by
  funext t
  rw [Bool.eq_iff_iff]
  simp only [reaches, List.any_eq_true, List.contains_iff_mem, h]

/-- The order of joins depends on which variables are known at the start. -/
theorem arrange_congr {known known' : List String} (h : ∀ v, v ∈ known ↔ v ∈ known') (ts : List Triple) :
    arrange known ts = arrange known' ts := by
  induction known, ts using arrange.induct generalizing known' with
  | case1 known ts hf => rw [arrange_of_none hf, arrange_of_none (reaches_congr h ▸ hf)]
  | case2 known ts t hf ih =>
    have hf' : ts.find? (reaches known') = some t := reaches_congr h ▸ hf
    rw [arrange_of_some hf, arrange_of_some hf', ← reaches_congr h,
      ih fun v => show v ∈ known ++ t.vars ↔ v ∈ known' ++ t.vars by simp [h]]

/-- The entry that is found comes first and the others stay. -/
theorem perm_cons_eraseP {α : Type} {p : α → Bool} {as : List α} {a : α} (h : as.find? p = some a) :
    (a :: as.eraseP p).Perm as := by
  obtain ⟨ha, l, r, rfl, hl⟩ := List.find?_eq_some_iff_append.1 h
  rw [List.eraseP_append_right _ fun b hb => by simpa using hl b hb, List.eraseP_cons_of_pos ha]
  exact List.perm_middle.symm

/-- **Nothing is lost and nothing is made up:** the reached triple patterns and the others are those given. -/
theorem arrange_perm (known : List String) (ts : List Triple) :
    ((arrange known ts).1 ++ (arrange known ts).2).Perm ts := by
  induction known, ts using arrange.induct with
  | case1 known ts hf => rw [arrange_of_none hf]; exact .refl _
  | case2 known ts t hf ih =>
    rw [arrange_of_some hf]
    exact (ih.cons t).trans (perm_cons_eraseP hf)

/-- Where every triple pattern is reached they are those given. -/
theorem arrange_fst_perm {known : List String} {ts : List Triple} (h : (arrange known ts).2 = []) :
    (arrange known ts).1.Perm ts := by
  have := arrange_perm known ts
  rwa [h, List.append_nil] at this

/-- **What is reached shares a variable** with the known ones or with what was reached before it. -/
theorem reaches_of_arrange {known : List String} {ts l r : List Triple} {t : Triple}
    (h : (arrange known ts).1 = l ++ t :: r) : reaches (known ++ l.flatMap Triple.vars) t = true := by
  induction known, ts using arrange.induct generalizing l with
  | case1 known ts hf =>
    rw [arrange_of_none hf] at h
    exact absurd h.symm (List.append_ne_nil_of_right_ne_nil _ (List.cons_ne_nil _ _))
  | case2 known ts t₀ hf ih =>
    rw [arrange_of_some hf] at h
    cases l with
    | nil =>
      obtain rfl := (List.cons.inj h).1
      rw [List.flatMap_nil, List.append_nil]
      exact List.find?_some hf
    | cons t₁ l =>
      obtain ⟨rfl, hl⟩ := List.cons.inj h
      rw [List.flatMap_cons, ← List.append_assoc]
      exact ih hl

/-- The triple patterns of a graph pattern as they are joined when the given variables are known. -/
def joinOrder (known : List String) (gp : GraphPattern) : List Triple :=
  match gp.triples with
  | [] => []
  | t :: ts => t :: (arrange (known ++ t.vars) ts).1

/-- The order of a graph pattern depends on which variables are known before it. -/
theorem joinOrder_congr {known known' : List String} (h : ∀ v, v ∈ known ↔ v ∈ known')
    (gp : GraphPattern) : joinOrder known gp = joinOrder known' gp := by
  unfold joinOrder
  split
  · rfl
  · next t ts _ => rw [arrange_congr fun v => show v ∈ known ++ t.vars ↔ v ∈ known' ++ t.vars by simp [h]]

/-- **Where nothing is stranded, all triple patterns join,** each once. -/
theorem joinOrder_perm {known : List String} {gp : GraphPattern} {t : Triple} {ts : List Triple}
    (hgp : gp.triples = t :: ts) (h : (arrange (known ++ t.vars) ts).2 = []) :
    (joinOrder known gp).Perm gp.triples := by
  rw [joinOrder, hgp]
  exact (arrange_fst_perm h).cons t

end Compile
end TripleSql
