/-
# Which filters wait

A filter is ready once one of its variables occurs in the joined triple patterns and every one of them occurs there or
was known before (`IsReady`). A filter that is ready stays ready when more is joined. So what waits at any time can be
said without the steps before it (`Waiting.pending`): the filters that are not ready, in the order in which they stand,
and all of them as long as the first triple pattern is alone, for filters are taken at joins only. A join keeps this
(`Waiting.step`), and so does a run of them (`Waiting.joinEach`).
-/

import TripleSql.Proofs.Fragments

namespace TripleSql
namespace Compile

open Pattern Sql

/-- One variable of the filter occurs in the triple patterns, and all of them occur there or are known. -/
def IsReady (known : List String) (ts : List Triple) (f : Filter) : Prop :=
  (∃ v ∈ f.vars, v ∈ ts.flatMap Triple.vars) ∧ ∀ v ∈ f.vars, v ∈ known ∨ v ∈ ts.flatMap Triple.vars

instance (known : List String) (ts : List Triple) : DecidablePred (IsReady known ts) := fun f =>
  inferInstanceAs (Decidable ((∃ v ∈ f.vars, v ∈ ts.flatMap Triple.vars) ∧
    ∀ v ∈ f.vars, v ∈ known ∨ v ∈ ts.flatMap Triple.vars))

/-- A filter that is ready stays ready. -/
theorem IsReady.mono {known : List String} {ts ts' : List Triple} {f : Filter} (h : IsReady known ts f)
    (hs : ∀ t ∈ ts, t ∈ ts') : IsReady known ts' f := by
  have grow : ∀ {v}, v ∈ ts.flatMap Triple.vars → v ∈ ts'.flatMap Triple.vars := fun hv => by
    obtain ⟨t, ht, hv⟩ := List.mem_flatMap.1 hv
    exact List.mem_flatMap.2 ⟨t, hs t ht, hv⟩
  obtain ⟨⟨v, hv, hj⟩, hall⟩ := h
  exact ⟨⟨v, hv, grow hj⟩, fun w hw => (hall w hw).imp_right grow⟩

/-- A filter becomes a condition if each of its variables has a column. -/
theorem isSome_conditionOf? {column? : String → Option Column} {f : Filter} :
    (conditionOf? column? f).isSome = true ↔ ∀ v ∈ f.vars, (column? v).isSome = true := by
  constructor
  · intro h v hv
    obtain ⟨e, he⟩ := Option.isSome_iff_exists.1 h
    obtain ⟨c, hc, -⟩ := exists_column_of_mem_vars he hv
    exact hc ▸ rfl
  · intro h
    have side : ∀ {n : Node}, (∀ v, n = .var v → v ∈ f.vars) → ∃ o, operandOf? column? n = some o := fun {n} hn => by
      cases n with
      | const x => exact ⟨_, rfl⟩
      | var v =>
        obtain ⟨c, hc⟩ := Option.isSome_iff_exists.1 (h v (hn v rfl))
        exact ⟨.column c, operandOf?_eq_column.2 ⟨v, rfl, hc⟩⟩
    obtain ⟨l, hl⟩ := side fun v hv => Filter.mem_vars.2 (.inl hv)
    obtain ⟨r, hr⟩ := side fun v hv => Filter.mem_vars.2 (.inr hv)
    exact Option.isSome_iff_exists.2 ⟨⟨l, f.operator, r⟩, conditionOf?_eq_some.2 ⟨hl, hr, rfl⟩⟩

namespace Pending

/-- A filter is ready at a variable that it has, once all of its variables are bound. -/
theorem isReady_iff {b : Bindings} {v : String} {f : Filter} :
    isReady b v f = true ↔ v ∈ f.vars ∧ ∀ w ∈ f.vars, w ∈ b.vars := by
  rw [isReady, Bool.and_eq_true, List.contains_iff_mem, isSome_conditionOf?]
  simp only [Bindings.mem_vars]

/-- Taking at some variables leaves the filters that are ready at none of them. -/
theorem filters_takeEach (b : Bindings) (vs : List String) (p : Pending) :
    (takeEach b vs p).2.filters = p.filters.filter fun f => !vs.any (isReady b · f) := by
  induction vs generalizing p with
  | nil => exact (List.filter_eq_self.2 fun _ _ => rfl).symm
  | cons v vs ih =>
    rw [takeEach, ih, takeAt, List.filter_filter]
    refine List.filter_congr fun f _ => ?_
    rw [List.any_cons, Bool.not_or, Bool.and_comm]

end Pending

/-- **What is known, what is joined and what waits** when the triple patterns `rest` have joined the triple pattern
`t`. -/
structure Waiting (known : List String) (filters : List Filter) (t : Triple) (rest : List Triple) (g : Growth)
    (s : Scope) : Prop where
  bound : ∀ v, v ∈ s.bindings.vars ↔ v ∈ known ∨ v ∈ (t :: rest).flatMap Triple.vars
  joined : ∀ v, v ∈ g.fragment.columns.map (·.1) ↔ v ∈ (t :: rest).flatMap Triple.vars
  pending : g.pending.filters = filters.filter fun f => ¬ (rest ≠ [] ∧ IsReady known (t :: rest) f)

/-- The columns of a placement are those of the variables of its triple pattern. -/
theorem Placement.mem_names {p : Placement} {v : String} : v ∈ p.columns.map (·.1) ↔ v ∈ p.triple.vars := by
  rw [Placement.mem_vars, List.mem_map]
  exact ⟨fun ⟨e, he, hv⟩ => ⟨e.2, hv ▸ he⟩, fun ⟨c, hc⟩ => ⟨_, hc, rfl⟩⟩

namespace Waiting

variable {cat : Catalog} {known : List String} {filters : List Filter} {t u : Triple} {rest ts : List Triple}
  {g g' : Growth} {s s' : Scope} {p : Placement}

/-- The first triple pattern alone: all filters wait. -/
theorem start (h : place cat t s = .ok p s') :
    Waiting s.bindings.vars filters t [] ⟨.single p, ⟨filters⟩⟩ s' where
  bound v := by rw [mem_vars_place h, List.flatMap_singleton]
  joined v := by
    rw [List.flatMap_singleton, ← (place_eq_ok h).1]
    exact Placement.mem_names
  pending := (List.filter_eq_self.2 fun _ _ => decide_eq_true fun h => h.1 rfl).symm

/-- One more triple pattern brings its own variables. -/
theorem mem_vars_snoc {v : String} :
    v ∈ (t :: (rest ++ [u])).flatMap Triple.vars ↔ v ∈ (t :: rest).flatMap Triple.vars ∨ v ∈ u.vars := by
  rw [← List.cons_append, List.flatMap_append, List.flatMap_singleton, List.mem_append]

/-- Once a triple pattern is placed, its variables are bound. -/
theorem bound_place (h : Waiting known filters t rest g s) (hp : place cat u s = .ok p s') (v : String) :
    v ∈ s'.bindings.vars ↔ v ∈ known ∨ v ∈ (t :: (rest ++ [u])).flatMap Triple.vars := by
  rw [mem_vars_place hp, h.bound, mem_vars_snoc, or_assoc]

/-- Once a triple pattern is joined, its variables have columns in the joined tables. -/
theorem joined_place (h : Waiting known filters t rest g s) (hp : place cat u s = .ok p s') (v : String) :
    v ∈ (g.columnsWith p).map (·.1) ↔ v ∈ (t :: (rest ++ [u])).flatMap Triple.vars := by
  rw [mem_vars_snoc, ← h.joined, ← (place_eq_ok hp).1, ← Placement.mem_names]
  simp only [Growth.columnsWith, List.mem_map, mem_addColumns, or_and_right, exists_or]

/-- At a join a filter is taken if it is ready together with the triple pattern that joins. -/
theorem any_isReady (h : Waiting known filters t rest g s) (hp : place cat u s = .ok p s') (f : Filter) :
    ((g.columnsWith p).map (·.1)).any (Pending.isReady s'.bindings · f) = true ↔
      IsReady known (t :: (rest ++ [u])) f := by
  simp only [List.any_eq_true, Pending.isReady_iff, h.bound_place hp, h.joined_place hp, IsReady]
  exact ⟨fun ⟨v, hj, hv, hall⟩ => ⟨⟨v, hv, hj⟩, hall⟩, fun ⟨⟨v, hv, hj⟩, hall⟩ => ⟨v, hj, hv, hall⟩⟩

/-- **One triple pattern more:** the filters that are ready now do not wait any longer. -/
theorem step (h : Waiting known filters t rest g s) (hp : place cat u s = .ok p s') :
    Waiting known filters t (rest ++ [u]) (g.join p s').1 (g.join p s').2 where
  bound v := (h.bound_place hp v :)
  joined v := (h.joined_place hp v :)
  pending := by
    change (Pending.takeEach s'.bindings ((g.columnsWith p).map (·.1)) g.pending).2.filters = _
    rw [Pending.filters_takeEach, h.pending, List.filter_filter]
    refine List.filter_congr fun f _ => ?_
    rw [Bool.eq_iff_iff, Bool.and_eq_true, Bool.not_eq_true', ← Bool.not_eq_true, h.any_isReady hp, decide_eq_true_iff,
      decide_eq_true_iff]
    have hmono : IsReady known (t :: rest) f → IsReady known (t :: (rest ++ [u])) f := fun hf =>
      hf.mono fun w hw => List.cons_subset_cons t (List.subset_append_left rest [u]) hw
    have hne : rest ++ [u] ≠ [] := List.append_ne_nil_of_right_ne_nil _ (List.cons_ne_nil _ _)
    exact ⟨fun hf hf' => hf.1 hf'.2, fun hf => ⟨fun hf' => hf ⟨hne, hf'⟩, fun hf' => hf ⟨hne, hmono hf'.2⟩⟩⟩

/-- **Whatever is joined, the filters that are not ready wait.** -/
theorem joinEach (h : Waiting known filters t rest g s) (hg : Growth.joinEach cat g ts s = .ok g' s') :
    Waiting known filters t (rest ++ ts) g' s' := by
  induction ts generalizing rest g s with
  | nil =>
    obtain ⟨rfl, rfl⟩ := Step.pure_eq_ok.1 hg
    rwa [List.append_nil]
  | cons u ts ih =>
    simp only [Growth.joinEach, Step.bind_eq_ok, Step.modifyGet_eq_ok] at hg
    obtain ⟨p, s₁, hp, g₁, s₂, hj, hg⟩ := hg
    have hstep := h.step hp
    rw [hj] at hstep
    have := ih hstep hg
    rwa [List.append_assoc, List.singleton_append] at this

end Waiting

end Compile
end TripleSql
