/-
# When a graph pattern compiles

Let the predicates of a graph pattern have tables and let its filters be such as may wait. Then compiling it fails for
two reasons only (`fragment_outcome`), and the first goes before the second:

| what fails | error |
| --- | --- |
| a triple pattern is not reached from what is known and the first one | `unreachable`, with all that are not reached |
| a filter has no place, and triple patterns were joined | `neverBound`, with all such filters |
| a filter of a lone triple pattern has no place | `unboundVariable`, with the first such filter |

A filter has a place if each of its variables occurs in the graph pattern or was known before, and, where triple
patterns are joined, one of them occurs in the graph pattern (`IsPlaced`). Whether the graph pattern compiles does not
depend on the order of its filters, nor on that of its triple patterns after the first one. None of this asks anything
of the scope.
-/

import TripleSql.Proofs.Reachability
import TripleSql.Proofs.ReadyFilters
import TripleSql.Proofs.Scoping

namespace TripleSql

namespace Pattern

/-- The filter with its operator spelled as in SQL. -/
def Filter.spelled (f : Filter) : Filter := { f with operator := Comparison.spelling f.operator }

@[simp] theorem Filter.vars_spelled (f : Filter) : f.spelled.vars = f.vars := rfl

end Pattern

namespace Compile

open Pattern Sql

/-- The filter has a variable, and its operator is that of a comparison. -/
def MayWait (f : Filter) : Prop := (Comparison.ofText? f.operator).isSome = true ∧ f.vars ≠ []

/-- Each variable of the filter occurs in the graph pattern or is known, and one occurs there if triple patterns are
joined. -/
def IsPlaced (known : List String) (gp : GraphPattern) (f : Filter) : Prop :=
  (∀ v ∈ f.vars, v ∈ known ∨ v ∈ gp.triples.flatMap Triple.vars) ∧
    (2 ≤ gp.triples.length → ∃ v ∈ f.vars, v ∈ gp.triples.flatMap Triple.vars)

instance (known : List String) (gp : GraphPattern) : DecidablePred (IsPlaced known gp) := fun f =>
  inferInstanceAs (Decidable ((∀ v ∈ f.vars, v ∈ known ∨ v ∈ gp.triples.flatMap Triple.vars) ∧
    (2 ≤ gp.triples.length → ∃ v ∈ f.vars, v ∈ gp.triples.flatMap Triple.vars)))

/-- A filter that may wait is accepted with its operator spelled as in SQL. -/
theorem Pending.accept_of_mayWait {f : Filter} (h : MayWait f) : accept f = .ok f.spelled := by
  obtain ⟨c, hc⟩ := Option.isSome_iff_exists.1 h.1
  rw [accept, hc]
  change (if f.vars = [] then _ else _) = _
  rw [if_neg h.2, Comparison.text_ofText? hc]
  rfl

/-- Filters that may wait do so as they stand, their operators spelled as in SQL. -/
theorem Pending.ofFilters_of_mayWait {fs : List Filter} (h : ∀ f ∈ fs, MayWait f) :
    ofFilters fs = .ok ⟨fs.map Filter.spelled⟩ := by
  refine map_eq_ok_except.2 ⟨_, mapM_eq_ok_except.2 (List.forall₂_map_right_iff.2 ?_), rfl⟩
  exact List.forall₂_same.2 fun f hf => accept_of_mayWait (h f hf)

/-- A filter that is accepted may wait. -/
theorem Pending.mayWait_of_accept {f f' : Filter} (h : accept f = .ok f') : MayWait f := by
  unfold accept at h
  split at h
  · cases h
  · next hc =>
    split at h
    · cases h
    · next hvars => exact ⟨hc ▸ rfl, hvars⟩

/-- **Filters are accepted if all of them may wait,** and not otherwise. -/
theorem Pending.ofFilters_eq_ok {fs : List Filter} {p : Pending} :
    ofFilters fs = .ok p ↔ (∀ f ∈ fs, MayWait f) ∧ p = ⟨fs.map Filter.spelled⟩ := by
  constructor
  · intro h
    obtain ⟨gs, hgs, -⟩ := map_eq_ok_except.1 h
    have hwait : ∀ f ∈ fs, MayWait f := fun f hf => by
      obtain ⟨f', -, hf'⟩ := exists_right_of_forall₂ (mapM_eq_ok_except.1 hgs) hf
      exact mayWait_of_accept hf'
    exact ⟨hwait, Except.ok.inj (h.symm.trans (ofFilters_of_mayWait hwait))⟩
  · rintro ⟨h, rfl⟩
    exact ofFilters_of_mayWait h

/-- A triple pattern is placed if its predicate has a table. -/
theorem exists_place {cat : Catalog} {t : Triple} (h : (cat.tableOf? t).isSome = true) (s : Scope) :
    ∃ p s', place cat t s = .ok p s' := by
  obtain ⟨subject, predicate, object⟩ := t
  cases predicate with
  | var v => cases h
  | const p =>
    obtain ⟨table, ht⟩ := Option.isSome_iff_exists.1 h
    have hresolve : cat.resolve s.aliases (.const p) = .ok (s.aliases.issue p table) := Catalog.resolve_of_get? ht
    exact ⟨_, _, by rw [place, hresolve]⟩

/-- Triple patterns whose predicates have tables are joined. -/
theorem exists_joinEach {cat : Catalog} {ts : List Triple} (h : ∀ t ∈ ts, (cat.tableOf? t).isSome = true) (g : Growth)
    (s : Scope) : ∃ g' s', Growth.joinEach cat g ts s = .ok g' s' := by
  induction ts generalizing g s with
  | nil => exact ⟨g, s, rfl⟩
  | cons t ts ih =>
    obtain ⟨p, s₁, hp⟩ := exists_place (h t (List.mem_cons_self ..)) s
    obtain ⟨g', s', hjoin⟩ := ih (fun t ht => h t (List.mem_cons_of_mem _ ht)) (g.join p s₁).1 (g.join p s₁).2
    refine ⟨g', s', ?_⟩
    simp only [Growth.joinEach, Step.bind_eq_ok, Step.modifyGet_eq_ok]
    exact ⟨p, s₁, hp, _, _, rfl, hjoin⟩

namespace Growth

/-- Where triple patterns were joined, a filter that waits at the end has no place. -/
theorem finish_of_ne_base {first : Placement} {b : Bindings} {g : Growth} (h : ∀ r, g.fragment.tree ≠ .base r) :
    g.finish first b = if g.pending.filters = [] then .ok g.fragment else .error (.neverBound g.pending.filters) := by
  rw [finish]
  by_cases hp : g.pending.filters = []
  · rw [if_pos hp, if_pos (by rw [Pending.isEmpty, hp, List.isEmpty_nil])]
  · rw [if_neg hp, if_neg (by rwa [Pending.isEmpty, List.isEmpty_iff])]
    split
    · rfl
    · next hr => exact absurd hr (h _)

/-- A lone triple pattern takes all filters if each of their variables has a column. -/
theorem exists_finish_single {first p : Placement} {b : Bindings} {fs : List Filter}
    (h : ∀ f ∈ fs, (conditionOf? (leftoverColumn? first b) f).isSome = true) :
    ∃ f, finish first b ⟨.single p, ⟨fs⟩⟩ = .ok f := by
  rw [finish]
  split
  · exact ⟨_, rfl⟩
  · obtain ⟨es, hes⟩ : ∃ es, fs.mapM (Pending.conditionOf (leftoverColumn? first b)) = .ok es := by
      refine (exists_forall₂ fun f hf => ?_).imp fun _ => mapM_eq_ok_except.2
      obtain ⟨e, he⟩ := Option.isSome_iff_exists.1 (h f hf)
      exact ⟨e, by rw [Pending.conditionOf, he]⟩
    exact ⟨_, bind_eq_ok_except.2 ⟨_, map_eq_ok_except.2 ⟨es, hes, rfl⟩, rfl⟩⟩

/-- A lone triple pattern fails at the first filter with a variable that has no column. -/
theorem finish_single_of_find? {first p : Placement} {b : Bindings} {fs : List Filter} {f : Filter}
    (h : fs.find? (fun f => !(conditionOf? (leftoverColumn? first b) f).isSome) = some f) :
    finish first b ⟨.single p, ⟨fs⟩⟩ = .error (.unboundVariable f) := by
  obtain ⟨hf, l, r, rfl, hl⟩ := List.find?_eq_some_iff_append.1 h
  have hfail : (l ++ f :: r).mapM (Pending.conditionOf (leftoverColumn? first b)) = .error (.unboundVariable f) := by
    refine mapM_append_eq_error_except (fun q hq => ?_) ?_
    · obtain ⟨e, he⟩ := Option.isSome_iff_exists.1 (by simpa using hl q hq)
      exact ⟨e, by rw [Pending.conditionOf, he]⟩
    · have hnone : conditionOf? (leftoverColumn? first b) f = none := by simpa using hf
      rw [Pending.conditionOf, hnone]
  have hconditions : Pending.conditions (leftoverColumn? first b) ⟨l ++ f :: r⟩ = .error (.unboundVariable f) := by
    rw [Pending.conditions, hfail]
    rfl
  rw [finish, if_neg (by simp [Pending.isEmpty])]
  change (Pending.conditions (leftoverColumn? first b) ⟨l ++ f :: r⟩ >>= _) = _
  rw [hconditions]
  rfl

/-- The columns that the filters of a lone triple pattern may read are those of the known variables. -/
theorem isSome_leftoverColumn? {cat : Catalog} {t : Triple} {first : Placement} {s s' : Scope} {v : String}
    (h : place cat t s = .ok first s') :
    (leftoverColumn? first s'.bindings v).isSome = true ↔ v ∈ s.bindings.vars ∨ v ∈ t.vars := by
  obtain ⟨htriple, -⟩ := place_eq_ok h
  rw [← mem_vars_place h, leftoverColumn?]
  cases hc : first.column? v with
  | none => exact Bindings.mem_vars.symm
  | some c =>
    refine iff_of_true rfl ((mem_vars_place h v).2 (.inr ?_))
    exact htriple ▸ Placement.mem_vars.2 ⟨c, Placement.mem_columns_of_column? hc⟩

end Growth

section Outcome

variable {cat : Catalog} {known : List String} {gp : GraphPattern} {t u : Triple} {ts : List Triple} {f : Filter}
  {s : Scope}

/-- Triple patterns are joined where one follows the first. -/
theorem two_le_length_iff (hgp : gp.triples = t :: ts) : 2 ≤ gp.triples.length ↔ ts ≠ [] := by
  rw [hgp, List.length_cons, Nat.succ_le_succ_iff, Nat.succ_le_iff, List.length_pos_iff]

/-- A filter of a lone triple pattern has a place if its variables are known or those of the pattern. -/
theorem isPlaced_iff_of_lone (hgp : gp.triples = [t]) :
    IsPlaced known gp f ↔ ∀ v ∈ f.vars, v ∈ known ∨ v ∈ t.vars := by
  rw [IsPlaced, hgp, List.flatMap_singleton]
  exact and_iff_left fun h => absurd h (Nat.not_succ_le_self 1)

/-- A filter of joined triple patterns has a place if it is ready at the last join. -/
theorem isPlaced_iff_of_joined (hgp : gp.triples = t :: ts) (hne : ts ≠ []) :
    IsPlaced known gp f ↔ IsReady known (t :: ts) f := by
  have htwo := (two_le_length_iff hgp).2 hne
  rw [IsPlaced, IsReady, hgp] at *
  exact ⟨fun h => ⟨h.2 htwo, h.1⟩, fun h => ⟨h.2, fun _ => h.1⟩⟩

/-- **How a graph pattern compiles** whose predicates have tables and whose filters may wait: all that is reached is
joined, and the end decides. -/
theorem exists_fragment_eq (hgp : gp.triples = t :: ts) (hmapped : ∀ u ∈ gp.triples, (cat.tableOf? u).isSome = true)
    (hfilters : ∀ f ∈ gp.filters, MayWait f) (s : Scope) :
    ∃ first s₁ g s', place cat t s = .ok first s₁ ∧
      Growth.joinEach cat ⟨.single first, ⟨gp.filters.map Filter.spelled⟩⟩ (arrange (s.bindings.vars ++ t.vars) ts).1 s₁ =
        .ok g s' ∧
      fragment cat gp s = (if (arrange (s.bindings.vars ++ t.vars) ts).2 = [] then
          MonadExcept.ofExcept (g.finish first s'.bindings)
        else throw (.unreachable (arrange (s.bindings.vars ++ t.vars) ts).2 s'.bindings.names) : Step Fragment) s' := by
  have hreached : ∀ u ∈ (arrange (s.bindings.vars ++ t.vars) ts).1, (cat.tableOf? u).isSome = true := fun u hu => by
    have hu := (arrange_perm (s.bindings.vars ++ t.vars) ts).subset (List.mem_append_left _ hu)
    exact hmapped u (hgp ▸ List.mem_cons_of_mem _ hu)
  obtain ⟨first, s₁, hfirst⟩ := exists_place (hmapped t (hgp ▸ List.mem_cons_self ..)) s
  obtain ⟨g, s', hg⟩ := exists_joinEach hreached ⟨.single first, ⟨gp.filters.map Filter.spelled⟩⟩ s₁
  refine ⟨first, s₁, g, s', hfirst, hg, ?_⟩
  rw [← arrange_place hfirst] at hg ⊢
  have hpending : (MonadExcept.ofExcept (Pending.ofFilters gp.filters) : Step Pending) s =
      .ok ⟨gp.filters.map Filter.spelled⟩ s :=
    Step.ofExcept_eq_ok.2 ⟨Pending.ofFilters_of_mayWait hfilters, rfl⟩
  rw [fragment, hgp]
  refine (Step.bind_of_eq_ok hpending).trans ((Step.bind_of_eq_ok hfirst).trans ?_)
  refine (Step.bind_of_eq_ok (Step.get_eq_ok.2 ⟨rfl, rfl⟩)).trans ((Step.bind_of_eq_ok hg).trans ?_)
  exact Step.bind_of_eq_ok (Step.get_eq_ok.2 ⟨rfl, rfl⟩)

/-- **What is not reached is named,** whatever the filters are. -/
theorem fragment_of_not_reached (hgp : gp.triples = t :: ts)
    (hmapped : ∀ u ∈ gp.triples, (cat.tableOf? u).isSome = true) (hfilters : ∀ f ∈ gp.filters, MayWait f)
    (h : ¬ ∀ u ∈ ts, IsReached (s.bindings.vars ++ t.vars) ts u) :
    ∃ s', fragment cat gp s = .error (.unreachable (ts.filter (¬ IsReached (s.bindings.vars ++ t.vars) ts ·))
      s'.bindings.names) s' := by
  obtain ⟨_, _, _, s', _, _, heq⟩ := exists_fragment_eq hgp hmapped hfilters s
  refine ⟨s', ?_⟩
  rw [heq, if_neg (mt arrange_snd_eq_nil_iff.1 h), arrange_snd]
  rfl

/-- **What is joined and what waits** when all triple patterns are reached. -/
theorem exists_fragment_eq_of_reached (hgp : gp.triples = t :: ts)
    (hmapped : ∀ u ∈ gp.triples, (cat.tableOf? u).isSome = true) (hfilters : ∀ f ∈ gp.filters, MayWait f)
    (h : ∀ u ∈ ts, IsReached (s.bindings.vars ++ t.vars) ts u) :
    ∃ first s₁ g s' rest, place cat t s = .ok first s₁ ∧ rest.Perm ts ∧
      Growth.joinEach cat ⟨.single first, ⟨gp.filters.map Filter.spelled⟩⟩ rest s₁ = .ok g s' ∧
      fragment cat gp s = (MonadExcept.ofExcept (g.finish first s'.bindings) : Step Fragment) s' := by
  obtain ⟨first, s₁, g, s', hfirst, hg, heq⟩ := exists_fragment_eq hgp hmapped hfilters s
  have hall : (arrange (s.bindings.vars ++ t.vars) ts).2 = [] := arrange_snd_eq_nil_iff.2 h
  rw [if_pos hall] at heq
  exact ⟨first, s₁, g, s', _, hfirst, arrange_fst_perm hall, hg, heq⟩

/-- **A lone triple pattern** compiles if each of its filters has a place, and fails at the first that has none. -/
theorem fragment_of_lone (hgp : gp.triples = [t]) (hmapped : ∀ u ∈ gp.triples, (cat.tableOf? u).isSome = true)
    (hfilters : ∀ f ∈ gp.filters, MayWait f) :
    ((∀ f ∈ gp.filters, IsPlaced s.bindings.vars gp f) → ∃ f s', fragment cat gp s = .ok f s') ∧
      ∀ f, gp.filters.find? (¬ IsPlaced s.bindings.vars gp ·) = some f →
        ∃ s', fragment cat gp s = .error (.unboundVariable f.spelled) s' := by
  obtain ⟨first, s₁, g, s', rest, hfirst, hperm, hg, heq⟩ :=
    exists_fragment_eq_of_reached (s := s) hgp hmapped hfilters nofun
  obtain rfl := hperm.eq_nil
  obtain ⟨rfl, rfl⟩ := Step.pure_eq_ok.1 hg
  have hplaced : ∀ f : Filter, (conditionOf? (Growth.leftoverColumn? first s₁.bindings) f.spelled).isSome = true ↔
      IsPlaced s.bindings.vars gp f := fun f => by
    rw [isSome_conditionOf?, isPlaced_iff_of_lone hgp, Filter.vars_spelled]
    simp only [Growth.isSome_leftoverColumn? hfirst]
  constructor
  · intro h
    obtain ⟨f, hf⟩ : ∃ f, Growth.finish first s₁.bindings ⟨.single first, ⟨gp.filters.map Filter.spelled⟩⟩ = .ok f :=
      Growth.exists_finish_single (List.forall_mem_map.2 fun f hf => (hplaced f).2 (h f hf))
    exact ⟨f, s₁, by rw [heq, hf]; rfl⟩
  · intro f hf
    have hfind : (gp.filters.map Filter.spelled).find?
        (fun f => !(conditionOf? (Growth.leftoverColumn? first s₁.bindings) f).isSome) = some f.spelled := by
      rw [List.find?_map, ← Option.map_some, ← hf]
      refine congrArg _ (congrFun (congrArg _ (funext fun q => ?_)) _)
      rw [Bool.eq_iff_iff, decide_eq_true_iff, ← hplaced q, Function.comp_apply, Bool.not_eq_true', Bool.not_eq_true]
    exact ⟨s₁, by rw [heq, Growth.finish_single_of_find? hfind]; rfl⟩

/-- **Joined triple patterns** compile if each filter has a place, and fail with all that have none. -/
theorem fragment_of_joined (hgp : gp.triples = t :: ts) (hne : ts ≠ [])
    (hmapped : ∀ u ∈ gp.triples, (cat.tableOf? u).isSome = true) (hfilters : ∀ f ∈ gp.filters, MayWait f)
    (h : ∀ u ∈ ts, IsReached (s.bindings.vars ++ t.vars) ts u) :
    ((∀ f ∈ gp.filters, IsPlaced s.bindings.vars gp f) → ∃ f s', fragment cat gp s = .ok f s') ∧
      ((¬ ∀ f ∈ gp.filters, IsPlaced s.bindings.vars gp f) → ∃ s', fragment cat gp s =
        .error (.neverBound ((gp.filters.filter (¬ IsPlaced s.bindings.vars gp ·)).map Filter.spelled)) s') := by
  obtain ⟨first, s₁, g, s', rest, hfirst, hperm, hg, heq⟩ := exists_fragment_eq_of_reached hgp hmapped hfilters h
  have hrest : rest ≠ [] := fun hr => hne (hr ▸ hperm).symm.eq_nil
  have hpending : g.pending.filters =
      (gp.filters.filter (¬ IsPlaced s.bindings.vars gp ·)).map Filter.spelled := by
    rw [((Waiting.start hfirst).joinEach hg).pending, List.nil_append, List.filter_map]
    refine congrArg _ (List.filter_congr fun f _ => ?_)
    have hready : IsReady s.bindings.vars (t :: rest) f.spelled ↔ IsReady s.bindings.vars (t :: ts) f :=
      ⟨fun h => h.mono fun _ hu => (hperm.cons t).subset hu, fun h => h.mono fun _ hu => (hperm.cons t).symm.subset hu⟩
    rw [Function.comp_apply, decide_eq_decide, isPlaced_iff_of_joined hgp hne, and_iff_right hrest, hready]
  rw [Growth.finish_of_ne_base (Extends.tree_ne_base hg hrest), hpending] at heq
  constructor
  · intro h
    rw [List.filter_eq_nil_iff.2 fun f hf => by simpa using h f hf, if_pos List.map_nil] at heq
    exact ⟨_, s', heq⟩
  · intro h
    rw [if_neg] at heq
    · exact ⟨s', heq⟩
    · rw [List.map_eq_nil_iff, List.filter_eq_nil_iff]
      simpa using h

/-- **Nothing stops a graph pattern** whose predicates have tables, whose triple patterns are reached, and whose
filters have places. -/
theorem exists_fragment_of_isPlaced (hgp : gp.triples = t :: ts)
    (hmapped : ∀ u ∈ gp.triples, (cat.tableOf? u).isSome = true) (hfilters : ∀ f ∈ gp.filters, MayWait f)
    (hreached : ∀ u ∈ ts, IsReached (s.bindings.vars ++ t.vars) ts u)
    (hplaced : ∀ f ∈ gp.filters, IsPlaced s.bindings.vars gp f) : ∃ f s', fragment cat gp s = .ok f s' := by
  by_cases hne : ts = []
  · exact (fragment_of_lone (hne ▸ hgp) hmapped hfilters).1 hplaced
  · exact (fragment_of_joined hgp hne hmapped hfilters hreached).1 hplaced

/-- Where a filter has no place the graph pattern fails, in a way that says which. -/
theorem fragment_of_not_isPlaced (hgp : gp.triples = t :: ts)
    (hmapped : ∀ u ∈ gp.triples, (cat.tableOf? u).isSome = true) (hfilters : ∀ f ∈ gp.filters, MayWait f)
    (hreached : ∀ u ∈ ts, IsReached (s.bindings.vars ++ t.vars) ts u)
    (hplaced : ¬ ∀ f ∈ gp.filters, IsPlaced s.bindings.vars gp f) : ∃ s',
    (ts = [] ∧ ∃ f, gp.filters.find? (¬ IsPlaced s.bindings.vars gp ·) = some f ∧
      fragment cat gp s = .error (.unboundVariable f.spelled) s') ∨
    (ts ≠ [] ∧ fragment cat gp s =
      .error (.neverBound ((gp.filters.filter (¬ IsPlaced s.bindings.vars gp ·)).map Filter.spelled)) s') := by
  by_cases hne : ts = []
  · obtain ⟨f, hf⟩ : ∃ f, gp.filters.find? (¬ IsPlaced s.bindings.vars gp ·) = some f := by
      rw [← Option.isSome_iff_exists, List.find?_isSome]
      simpa using hplaced
    obtain ⟨s', hs'⟩ := (fragment_of_lone (hne ▸ hgp) hmapped hfilters).2 f hf
    exact ⟨s', .inl ⟨hne, f, hf, hs'⟩⟩
  · obtain ⟨s', hs'⟩ := (fragment_of_joined hgp hne hmapped hfilters hreached).2 hplaced
    exact ⟨s', .inr ⟨hne, hs'⟩⟩

/-- A graph pattern compiles exactly where its triple patterns are reached and its filters have places. -/
theorem exists_fragment_iff (hgp : gp.triples = t :: ts) (hmapped : ∀ u ∈ gp.triples, (cat.tableOf? u).isSome = true)
    (hfilters : ∀ f ∈ gp.filters, MayWait f) : (∃ f s', fragment cat gp s = .ok f s') ↔
      (∀ u ∈ ts, IsReached (s.bindings.vars ++ t.vars) ts u) ∧ ∀ f ∈ gp.filters, IsPlaced s.bindings.vars gp f := by
  refine ⟨fun ⟨f, s', h⟩ => ?_, fun h => exists_fragment_of_isPlaced hgp hmapped hfilters h.1 h.2⟩
  have hreached : ∀ u ∈ ts, IsReached (s.bindings.vars ++ t.vars) ts u := by
    by_contra hn
    obtain ⟨s₁, hs₁⟩ := fragment_of_not_reached hgp hmapped hfilters hn
    cases h.symm.trans hs₁
  refine ⟨hreached, by_contra fun hn => ?_⟩
  obtain ⟨s₁, ⟨-, q, -, hs₁⟩ | ⟨-, hs₁⟩⟩ := fragment_of_not_isPlaced hgp hmapped hfilters hreached hn
  · cases h.symm.trans hs₁
  · cases h.symm.trans hs₁

/-- A filter has a place whatever the order of the triple patterns. -/
theorem isPlaced_congr {gp' : GraphPattern} (h : gp'.triples.Perm gp.triples) :
    IsPlaced known gp' f ↔ IsPlaced known gp f := by
  simp only [IsPlaced, (h.flatMap_right Triple.vars).mem_iff, h.length_eq]

/-- **What comes of a graph pattern** whose predicates have tables and whose filters may wait, in any scope. It compiles
exactly where all triple patterns are reached and all filters have places. It fails first with the triple patterns that
are not reached, in the order in which they stand, and then with the filters that have no place. The order of the
filters and of the triple patterns after the first one does not decide whether it compiles. -/
theorem fragment_outcome (hgp : gp.triples = t :: ts) (hmapped : ∀ u ∈ gp.triples, (cat.tableOf? u).isSome = true)
    (hfilters : ∀ f ∈ gp.filters, MayWait f) (s : Scope) :
    ((∃ f s', fragment cat gp s = .ok f s') ↔
      (∀ u ∈ ts, IsReached (s.bindings.vars ++ t.vars) ts u) ∧ ∀ f ∈ gp.filters, IsPlaced s.bindings.vars gp f) ∧
    ((¬ ∀ u ∈ ts, IsReached (s.bindings.vars ++ t.vars) ts u) → ∃ s', fragment cat gp s =
      .error (.unreachable (ts.filter (¬ IsReached (s.bindings.vars ++ t.vars) ts ·)) s'.bindings.names) s') ∧
    ((∀ u ∈ ts, IsReached (s.bindings.vars ++ t.vars) ts u) →
      (¬ ∀ f ∈ gp.filters, IsPlaced s.bindings.vars gp f) → ∃ s',
        (ts = [] ∧ ∃ f, gp.filters.find? (¬ IsPlaced s.bindings.vars gp ·) = some f ∧
          fragment cat gp s = .error (.unboundVariable f.spelled) s') ∨
        (ts ≠ [] ∧ fragment cat gp s =
          .error (.neverBound ((gp.filters.filter (¬ IsPlaced s.bindings.vars gp ·)).map Filter.spelled)) s')) ∧
    ∀ ts' fs', ts'.Perm ts → fs'.Perm gp.filters →
      ((∃ f s', fragment cat ⟨t :: ts', fs'⟩ s = .ok f s') ↔ ∃ f s', fragment cat gp s = .ok f s') := by
  refine ⟨exists_fragment_iff hgp hmapped hfilters, fragment_of_not_reached hgp hmapped hfilters,
    fragment_of_not_isPlaced hgp hmapped hfilters, fun ts' fs' hts hfs => ?_⟩
  have htriples : (t :: ts').Perm gp.triples := hgp ▸ hts.cons t
  have hmapped' : ∀ u ∈ t :: ts', (cat.tableOf? u).isSome = true := fun u hu => hmapped u (htriples.subset hu)
  have hfilters' : ∀ f ∈ fs', MayWait f := fun f hf => hfilters f (hfs.subset hf)
  have hplaced : ∀ f, IsPlaced s.bindings.vars ⟨t :: ts', fs'⟩ f ↔ IsPlaced s.bindings.vars gp f := fun f =>
    isPlaced_congr htriples
  have hiff : (∃ f s', fragment cat ⟨t :: ts', fs'⟩ s = .ok f s') ↔ _ := exists_fragment_iff rfl hmapped' hfilters'
  rw [hiff, exists_fragment_iff hgp hmapped hfilters]
  simp only [hplaced, hts.mem_iff, hfs.mem_iff, isReached_congr fun _ => hts.mem_iff]

end Outcome

/-- Who knows somebody who likes somebody of an age; the age is less than something from outside. -/
def relayed : GraphPattern where
  triples := [⟨.var "x", .const "<knows>", .var "y"⟩, ⟨.var "z", .const "<age>", .var "a"⟩,
    ⟨.var "y", .const "<likes>", .var "z"⟩]
  filters := [⟨.var "a", "<", .var "w"⟩]

/-- A scope in which the variable of `relayed` from outside has a column. -/
def outside : Scope := { bindings := ⟨[("w", ⟨"age", "o"⟩)]⟩ }

/-- The predicates of `relayed` have tables. -/
theorem relayed_tableOf? : ∀ u ∈ relayed.triples, (Session.friends.catalog.tableOf? u).isSome = true := by
  decide +kernel

/-- The filters of `relayed` may wait. -/
theorem relayed_mayWait : ∀ f ∈ relayed.filters, MayWait f := fun f hf => by
  obtain rfl := List.mem_singleton.1 hf
  exact ⟨by decide +kernel, by decide⟩

/-- The age is known of somebody whom only the third triple pattern reaches, and compares with what is known outside. -/
theorem relayed_outcome : (∃ f s', fragment Session.friends.catalog relayed outside = .ok f s') ∧
    ∃ s', fragment Session.friends.catalog relayed {} = .error (.neverBound relayed.filters) s' := by
  have hunplaced : (relayed.filters.filter (¬ IsPlaced [] relayed ·)).map Filter.spelled = relayed.filters := by
    decide +kernel
  refine ⟨(fragment_outcome rfl relayed_tableOf? relayed_mayWait _).1.2 ⟨by decide +kernel, by decide +kernel⟩, ?_⟩
  obtain ⟨s', ⟨h, -⟩ | ⟨-, h⟩⟩ :=
    (fragment_outcome rfl relayed_tableOf? relayed_mayWait {}).2.2.1 (by decide +kernel) (by decide +kernel)
  · cases h
  · exact ⟨s', hunplaced ▸ h⟩

end Compile
end TripleSql
