/-
# Where filters go

Where triple patterns are joined, each filter is taken at one join: the first at which one of its variables has been
joined and all of them are known (`TakenAt`). Before it the filter waits, from then on it does not. Its condition stands
at that join, or outside the fragment if it reads another table, and no filter is left over. The filters of a lone
triple pattern are all left over, a variable standing for the column of the pattern where it has one. This is
`fragment_filters`; it asks nothing of the scope.

| triple patterns as joined | filter | known | join | the condition stands |
| --- | --- | --- | --- | --- |
| `?a p ?b`, `?b q ?c`, `?c r ?d` | `?a < ?b` | | 1 | at the join |
| `?a p ?b`, `?b q ?c`, `?c r ?d` | `?a < ?d` | | 2 | at the join |
| `?a p ?b`, `?b q ?c`, `?c r ?d` | `?a < ?w` | `w` | 1 | outside |

A run of joins is taken apart at the join in question: what waits before and after it is known (`Waiting`), so is what
the join does with a filter that it takes (`Growth.has_join`), and the joins after it leave all that as it is
(`Extends`).
-/

import Mathlib.Data.Nat.Find
import Mathlib.Order.Bounds.Defs
import TripleSql.Proofs.PatternAcceptance

namespace TripleSql
namespace Compile

open Pattern Sql

/-- The fragment and the filters that wait when `k` triple patterns, or all there are, have joined the first one. -/
def growthAfter (cat : Catalog) (gp : GraphPattern) (k : Nat) : Step Growth :=
  match gp.triples with
  | [] => throw .emptyPattern
  | t :: ts => do
    let pending ← MonadExcept.ofExcept (Pending.ofFilters gp.filters)
    let first ← place cat t
    Growth.joinEach cat ⟨.single first, pending⟩ ((arrange (← get).bindings.vars ts).1.take k)

/-- **The filter is taken at join `k`:** this is the first at which it is ready, it waits exactly until then, and its
condition stands there, or outside if it reads other tables than those joined so far. -/
structure TakenAt (cat : Catalog) (gp : GraphPattern) (base : Scope) (f : Fragment) (s : Scope) (q : Filter)
    (k : Nat) : Prop where
  least : IsLeast {k | 1 ≤ k ∧
    IsReady base.bindings.vars ((joinOrder base.bindings.vars gp).take (k + 1)) q} k
  waits : ∀ j, ∃ g s', growthAfter cat gp j base = .ok g s' ∧ (q ∈ g.pending.filters ↔ j < k)
  stands : ∃ e table on, conditionOf? s.bindings.column? q = some e ∧ f.tree.tables[k]? = some table ∧
    f.tree.joins[k - 1]? = some (.inner, .table table, on) ∧
    Condition.Has (if e.isScopedTo (f.tree.aliases.take (k + 1)) then on else f.outer) e

section Run

variable {cat : Catalog} {gp : GraphPattern} {base s s₁ s' : Scope} {g g' : Growth} {filters : List Filter} {t u : Triple}
  {ts l r : List Triple} {first p : Placement} {q : Filter}

theorem joinEach_append_eq_ok : Growth.joinEach cat g (l ++ r) s = .ok g' s' ↔
    ∃ g₁ s₁, Growth.joinEach cat g l s = .ok g₁ s₁ ∧ Growth.joinEach cat g₁ r s₁ = .ok g' s' := by
  induction l generalizing g s with
  | nil =>
    refine ⟨fun h => ⟨g, s, rfl, h⟩, fun ⟨g₁, s₁, h₁, h⟩ => ?_⟩
    obtain ⟨rfl, rfl⟩ := Step.pure_eq_ok.1 h₁
    exact h
  | cons t l ih =>
    simp only [List.cons_append, Growth.joinEach, Step.bind_eq_ok, ih]
    constructor
    · rintro ⟨p, s₁, hp, g₁, s₂, hj, g₂, s₃, hl, hr⟩
      exact ⟨g₂, s₃, ⟨p, s₁, hp, g₁, s₂, hj, hl⟩, hr⟩
    · rintro ⟨g₂, s₃, ⟨p, s₁, hp, g₁, s₂, hj, hl⟩, hr⟩
      exact ⟨p, s₁, hp, g₁, s₂, hj, g₂, s₃, hl, hr⟩

theorem growthAfter_eq (hgp : gp.triples = t :: ts) (hpending : Pending.ofFilters gp.filters = .ok ⟨filters⟩)
    (hfirst : place cat t base = .ok first s₁) (k : Nat) : growthAfter cat gp k base =
      Growth.joinEach cat ⟨.single first, ⟨filters⟩⟩ ((arrange (base.bindings.vars ++ t.vars) ts).1.take k) s₁ := by
  have hok : (MonadExcept.ofExcept (Pending.ofFilters gp.filters) : Step Pending) base = .ok ⟨filters⟩ base :=
    Step.ofExcept_eq_ok.2 ⟨hpending, rfl⟩
  rw [growthAfter, hgp, ← arrange_place hfirst]
  refine (Step.bind_of_eq_ok hok).trans ((Step.bind_of_eq_ok hfirst).trans ?_)
  exact Step.bind_of_eq_ok (Step.get_eq_ok.2 ⟨rfl, rfl⟩)

/-- **What one join of a run adds to the tree:** its table and its join stand behind those of the triple patterns before
it, and those after it come behind. -/
theorem tree_of_split {g₁ : Growth} {s₂ s₃ s₄ : Scope}
    (hl : Growth.joinEach cat ⟨.single first, ⟨filters⟩⟩ l s₁ = .ok g₁ s₂)
    (hr : Growth.joinEach cat (g₁.join p s₃).1 r s₄ = .ok g s) :
    g.fragment.tree.tables[l.length + 1]? = some p.table ∧
      g.fragment.tree.joins[l.length]? = some (.inner, .table p.table, g₁.on p s₃) ∧
      g.fragment.tree.aliases.take (l.length + 2) = g₁.fragment.tree.aliases ++ [p.table.aliasName] := by
  obtain ⟨ps, rfl, -, hbefore⟩ := Extends.joinEach hl
  obtain ⟨ps', -, -, hafter⟩ := Extends.joinEach hr
  obtain ⟨js, hjs, hlen⟩ := hbefore.joins
  obtain ⟨js', hjs', -⟩ := hafter.joins
  have htables : g.fragment.tree.tables =
      (first.table :: ps.map Placement.table) ++ p.table :: ps'.map Placement.table := by
    rw [hafter.tables, Growth.tree_join, JoinTree.tables, hbefore.tables]
    simp [Fragment.single, JoinTree.tables, Source.tables]
  refine ⟨?_, ?_, ?_⟩
  · rw [htables, List.getElem?_append_right (by simp)]
    simp
  · rw [hjs', Growth.tree_join, JoinTree.joins, hjs, List.append_assoc, List.append_assoc]
    simp [Fragment.single, JoinTree.joins, hlen.length_eq]
  · rw [JoinTree.aliases, JoinTree.aliases, htables, hbefore.tables]
    simp [Fragment.single, JoinTree.tables, Source.tables, List.take_append]

/-- **A join that takes a filter says its condition,** and what comes after leaves it there. -/
theorem stands_of_split (hfirst : place cat t base = .ok first s₁)
    (hg : Growth.joinEach cat ⟨.single first, ⟨filters⟩⟩ (l ++ u :: r) s₁ = .ok g s)
    (hq : q ∈ filters) (hbefore : ¬ (l ≠ [] ∧ IsReady base.bindings.vars (t :: l) q))
    (hready : IsReady base.bindings.vars (t :: (l ++ [u])) q) :
    ∃ e table on, conditionOf? s.bindings.column? q = some e ∧
      g.fragment.tree.tables[l.length + 1]? = some table ∧
      g.fragment.tree.joins[l.length]? = some (.inner, .table table, on) ∧
      Condition.Has (if e.isScopedTo (g.fragment.tree.aliases.take (l.length + 2)) then on else g.fragment.outer) e := by
  obtain ⟨g₁, s₂, hl, hr⟩ := joinEach_append_eq_ok.1 hg
  simp only [Growth.joinEach, Step.bind_eq_ok, Step.modifyGet_eq_ok] at hr
  obtain ⟨p, s₃, hp, g₂, s₄, hj, hr⟩ := hr
  obtain ⟨rfl, rfl⟩ := Prod.ext_iff.1 hj
  have hwait : Waiting base.bindings.vars filters t l g₁ s₂ := (Waiting.start hfirst).joinEach hl
  have hq₁ : q ∈ g₁.pending.filters := by
    rw [hwait.pending]
    exact List.mem_filter.2 ⟨hq, decide_eq_true hbefore⟩
  have hq₂ : q ∉ (g₁.join p s₃).1.pending.filters := fun hq₂ => by
    rw [(hwait.step hp).pending] at hq₂
    exact of_decide_eq_true (List.mem_filter.1 hq₂).2 ⟨List.append_ne_nil_of_right_ne_nil _ (List.cons_ne_nil _ _), hready⟩
  obtain ⟨e, he, d, hd, hde⟩ := (Pending.mem_or_has_take _ hq₁).resolve_left hq₂
  obtain ⟨d', hd', hdd⟩ :=
    Growth.has_join (List.mem_append_left _ (List.mem_append_right _ hd) : d ∈ g₁.candidates p s₃)
  rw [Condition.isScopedTo_congr hde] at hd'
  obtain ⟨htable, hjoin, haliases⟩ := tree_of_split hl hr
  obtain ⟨ps, -, -, hafter⟩ := Extends.joinEach hr
  refine ⟨e, p.table, g₁.on p s₃, conditionOf?_mono (fun v c hv => ?_) he, htable, hjoin, d', ?_,
    Condition.isEquivalent_trans hdd hde⟩
  · rw [hafter.bindings]
    exact Bindings.column?_bindAll_of_column? hv _
  · rw [haliases]
    split at hd'
    · next hs => rwa [if_pos hs]
    · next hs => exact if_neg hs ▸ hafter.outer d' hd'

/-- From where a filter is first ready on, it is ready. -/
theorem isReady_take_iff {known : List String} {k : Nat} (hne : ts ≠ [])
    (hk : IsLeast {k | 1 ≤ k ∧ IsReady known ((t :: ts).take (k + 1)) q} k) (j : Nat) :
    (ts.take j ≠ [] ∧ IsReady known (t :: ts.take j) q) ↔ k ≤ j := by
  rw [Ne, List.take_eq_nil_iff, not_or, ← List.take_succ_cons]
  constructor
  · rintro ⟨⟨hj, -⟩, hready⟩
    exact hk.2 ⟨Nat.pos_of_ne_zero hj, hready⟩
  · intro hkj
    refine ⟨⟨Nat.ne_of_gt (Nat.lt_of_lt_of_le hk.1.1 hkj), hne⟩, hk.1.2.mono fun u hu => ?_⟩
    exact (List.take_subset_take_left _ (Nat.succ_le_succ hkj)) hu

/-- **Each filter is taken at one join** where triple patterns are joined and nothing waits in the end. -/
theorem exists_takenAt {f : Fragment} (hgp : gp.triples = t :: ts)
    (hpending : Pending.ofFilters gp.filters = .ok ⟨filters⟩) (hfirst : place cat t base = .ok first s₁)
    (hg : Growth.joinEach cat ⟨.single first, ⟨filters⟩⟩ (arrange (base.bindings.vars ++ t.vars) ts).1 s₁ = .ok g s)
    (hdone : g.pending.filters = []) (htree : f.tree = g.fragment.tree) (houter : f.outer = g.fragment.outer)
    (hq : q ∈ filters) : ∃ k, TakenAt cat gp base f s q k := by
  have horder : joinOrder base.bindings.vars gp = t :: (arrange (base.bindings.vars ++ t.vars) ts).1 := by
    rw [joinOrder, hgp]
  have hgrowth := growthAfter_eq hgp hpending hfirst
  generalize (arrange (base.bindings.vars ++ t.vars) ts).1 = rest at hg horder hgrowth
  -- The filter waits after `j` joins exactly if it was ready at none of them; after all of them it does not wait.
  have hwait : ∀ {j g' s'}, Growth.joinEach cat ⟨.single first, ⟨filters⟩⟩ (rest.take j) s₁ = .ok g' s' →
      (q ∈ g'.pending.filters ↔ ¬ (rest.take j ≠ [] ∧ IsReady base.bindings.vars (t :: rest.take j) q)) :=
    fun {j g' s'} h => by
      rw [((Waiting.start hfirst).joinEach h).pending, List.mem_filter, decide_eq_true_iff]
      exact and_iff_right hq
  obtain ⟨hne, hready⟩ : rest ≠ [] ∧ IsReady base.bindings.vars (t :: rest) q := by
    rw [← List.take_length (l := rest)] at hg
    have := hwait hg
    rw [hdone, List.take_length] at this
    exact not_not.1 (mt this.2 List.not_mem_nil)
  have hex : ∃ k, 1 ≤ k ∧ IsReady base.bindings.vars ((t :: rest).take (k + 1)) q :=
    ⟨rest.length, List.length_pos_of_ne_nil hne, by rwa [List.take_succ_cons, List.take_length]⟩
  -- So it was ready at some join, and the run is taken apart at the first one.
  obtain ⟨k, hk⟩ : ∃ k, IsLeast {k | 1 ≤ k ∧ IsReady base.bindings.vars ((t :: rest).take (k + 1)) q} k :=
    ⟨Nat.find hex, Nat.find_spec hex, fun _ => Nat.find_min' hex⟩
  have hready_iff := isReady_take_iff hne hk
  refine ⟨k, horder ▸ hk, fun j => ?_, ?_⟩
  · rw [← List.take_append_drop j rest] at hg
    obtain ⟨g', s', h, -⟩ := joinEach_append_eq_ok.1 hg
    exact ⟨g', s', (hgrowth j).trans h, by rw [hwait h, hready_iff, Nat.not_le]⟩
  · obtain ⟨j, rfl⟩ := Nat.exists_eq_add_of_le' hk.1.1
    have hj : j < rest.length :=
      hk.2 ⟨List.length_pos_of_ne_nil hne, by rwa [List.take_succ_cons, List.take_length]⟩
    rw [← List.take_append_drop j rest, List.drop_eq_getElem_cons hj] at hg
    have hlength : (rest.take j).length = j := List.length_take_of_le hj.le
    have hready : IsReady base.bindings.vars (t :: (rest.take j ++ [rest[j]])) q := by
      rw [List.take_append_getElem hj]
      exact ((hready_iff (j + 1)).2 le_rfl).2
    have := stands_of_split hfirst hg hq (mt (hready_iff j).1 (Nat.not_succ_le_self j)) hready
    rw [hlength] at this
    rw [htree, houter]
    exact this

/-- **Joined triple patterns leave no filter over.** -/
theorem finish_of_joined {f : Fragment} (hall : (arrange (base.bindings.vars ++ t.vars) ts).2 = []) (hne : ts ≠ [])
    (hg : Growth.joinEach cat ⟨.single first, ⟨filters⟩⟩ (arrange (base.bindings.vars ++ t.vars) ts).1 s₁ = .ok g s)
    (hfinish : g.finish first s.bindings = .ok f) : g.pending.filters = [] ∧ f = g.fragment ∧ f.leftover = [] := by
  have hrest : (arrange (base.bindings.vars ++ t.vars) ts).1 ≠ [] := fun hnil =>
    hne (hnil ▸ arrange_fst_perm hall).symm.eq_nil
  obtain ⟨ps, -, -, hext⟩ := Extends.joinEach hg
  rw [Growth.finish_of_ne_base (Extends.tree_ne_base hg hrest)] at hfinish
  split at hfinish
  · next hdone =>
    cases hfinish
    exact ⟨hdone, rfl, hext.leftover⟩
  · cases hfinish

/-- The filters that the fragment of a lone triple pattern is left with read its own columns before others. -/
theorem leftoverColumn?_place (hfirst : place cat t base = .ok first s₁) (v : String) :
    Growth.leftoverColumn? first s₁.bindings v = (first.columns.lookup v <|> base.bindings.column? v) := by
  obtain ⟨-, -, -, -, hbindings, -⟩ := place_eq_ok hfirst
  rw [Growth.leftoverColumn?, Placement.column?, hbindings, Bindings.column?_bindAll]
  cases first.columns.lookup v with
  | some c => rfl
  | none => exact Option.or_none

/-- **A lone triple pattern leaves all filters over,** and nothing else stands outside. -/
theorem finish_of_lone {f : Fragment} (hfirst : place cat t base = .ok first s₁)
    (hfinish : Growth.finish first s₁.bindings ⟨.single first, ⟨filters⟩⟩ = .ok f) :
    f.outer = [] ∧
      (∀ e ∈ f.leftover, ∃ q ∈ filters,
        conditionOf? (fun v => f.column? v <|> base.bindings.column? v) q = some e) ∧
      ∀ q ∈ filters, ∃ e, conditionOf? (fun v => f.column? v <|> base.bindings.column? v) q = some e ∧
        Condition.Has f.leftover e := by
  obtain ⟨-, hcolumns, houter, hleft, hleft'⟩ := Growth.finish_eq_ok hfinish rfl
  have hcolumn : Growth.leftoverColumn? first s₁.bindings = fun v => f.column? v <|> base.bindings.column? v := by
    funext v
    rw [leftoverColumn?_place hfirst, Fragment.column?, hcolumns]
    rfl
  rw [hcolumn] at hleft hleft'
  exact ⟨houter, hleft, hleft'⟩

/-- A fragment of joined triple patterns has no filter left over. -/
theorem leftover_of_joined {f : Fragment} (h : fragment cat gp base = .ok f s) (htwo : 2 ≤ gp.triples.length) :
    f.leftover = [] := by
  obtain ⟨t, ts, ⟨filters⟩, first, s₁, g, hgp, -, -, hg, hall, hfinish⟩ := fragment_eq_ok_iff.1 h
  exact (finish_of_joined hall ((two_le_length_iff hgp).1 htwo) hg hfinish).2.2

/-- What stands outside the fragment of a lone triple pattern and what is left over. -/
theorem leftover_of_lone {f : Fragment} (h : fragment cat gp base = .ok f s) (hone : gp.triples.length = 1) :
    ∃ filters, gp.filters.mapM Pending.accept = .ok filters ∧ f.outer = [] ∧
      (∀ e ∈ f.leftover, ∃ q ∈ filters,
        conditionOf? (fun v => f.column? v <|> base.bindings.column? v) q = some e) ∧
      ∀ q ∈ filters, ∃ e, conditionOf? (fun v => f.column? v <|> base.bindings.column? v) q = some e ∧
        Condition.Has f.leftover e := by
  obtain ⟨t, ts, pending, first, s₁, g, hgp, hpending, hfirst, hg, -, hfinish⟩ := fragment_eq_ok_iff.1 h
  obtain ⟨filters, hfilters, rfl⟩ := map_eq_ok_except.1 hpending
  rw [hgp, List.length_cons] at hone
  obtain rfl := List.eq_nil_of_length_eq_zero (Nat.succ.inj hone)
  rw [arrange_of_none rfl] at hg
  obtain ⟨rfl, rfl⟩ := Step.pure_eq_ok.1 hg
  exact ⟨filters, hfilters, finish_of_lone hfirst hfinish⟩

end Run

/-- **Every filter of a graph pattern that compiles goes to one place,** whatever the scope before it. Where triple
patterns are joined, each is taken at one join, the first at which it is ready, and none is left over. Those of a lone
triple pattern are left over, a variable standing for the column of the pattern, or else for the one known before. -/
theorem fragment_filters {cat : Catalog} {gp : GraphPattern} {base s : Scope} {f : Fragment}
    (h : fragment cat gp base = .ok f s) : ∃ (filters : List Filter) (ps : List Placement),
      gp.filters.mapM Pending.accept = .ok filters ∧
      ps.map Placement.triple = joinOrder base.bindings.vars gp ∧ (∀ p ∈ ps, p.Of cat) ∧
      f.tree.tables = ps.map Placement.table ∧
      (2 ≤ gp.triples.length → f.leftover = [] ∧ ∀ q ∈ filters, ∃ k, TakenAt cat gp base f s q k) ∧
      (gp.triples.length = 1 → ∀ q ∈ filters, ∃ e,
        conditionOf? (fun v => f.column? v <|> base.bindings.column? v) q = some e ∧
          Condition.Has f.leftover e) := by
  obtain ⟨t, ts, pending, first, s₁, g, hgp, hpending, hfirst, hg, hall, hfinish⟩ := fragment_eq_ok_iff.1 h
  obtain ⟨filters, hfilters, rfl⟩ := map_eq_ok_except.1 hpending
  obtain ⟨htriple, hof, -⟩ := place_eq_ok hfirst
  obtain ⟨ps, hps, hpof, hext⟩ := Extends.joinEach hg
  obtain ⟨htree, -⟩ := Growth.finish_eq_ok hfinish hext.leftover
  refine ⟨filters, first :: ps, hfilters, ?order, List.forall_mem_cons.2 ⟨hof, hpof⟩, ?tables,
    fun htwo => ?joined, fun hone => ?lone⟩
  case order => rw [List.map_cons, htriple, hps, joinOrder, hgp]
  case tables =>
    rw [htree, hext.tables]
    rfl
  case joined =>
    have hne := (two_le_length_iff hgp).1 htwo
    obtain ⟨hdone, rfl, hleftover⟩ := finish_of_joined hall hne hg hfinish
    exact ⟨hleftover, fun q hq => exists_takenAt hgp hpending hfirst hg hdone rfl rfl hq⟩
  case lone =>
    obtain ⟨filters', hfilters', -, -, hleft⟩ := leftover_of_lone h hone
    cases hfilters.symm.trans hfilters'
    exact hleft

/-- The age is compared where it is joined, two joins after the first triple pattern. -/
theorem relayed_filters : ∃ f s, fragment Session.friends.catalog relayed outside = .ok f s ∧
    TakenAt Session.friends.catalog relayed outside f s ⟨.var "a", "<", .var "w"⟩ 2 := by
  obtain ⟨f, s, h⟩ : ∃ f s, fragment Session.friends.catalog relayed outside = .ok f s :=
    exists_fragment_of_isPlaced rfl relayed_tableOf? relayed_mayWait (by decide +kernel) (by decide +kernel)
  obtain ⟨filters, -, hfilters, -, -, -, hjoined, -⟩ := fragment_filters h
  cases (by decide +kernel : relayed.filters.mapM Pending.accept = .ok relayed.filters).symm.trans hfilters
  obtain ⟨k, hk⟩ := (hjoined (by decide)).2 _ (List.mem_singleton_self _)
  have hone : ¬ IsReady outside.bindings.vars ((joinOrder outside.bindings.vars relayed).take 2)
      ⟨.var "a", "<", .var "w"⟩ := by decide +kernel
  have htwo : IsReady outside.bindings.vars ((joinOrder outside.bindings.vars relayed).take 3)
      ⟨.var "a", "<", .var "w"⟩ := by decide +kernel
  -- It is ready at the second join and not at the first.
  have hle : k ≤ 2 := hk.least.2 ⟨by decide, htwo⟩
  have hne : k ≠ 1 := by
    rintro rfl
    exact hone hk.least.1.2
  obtain rfl : k = 2 := Nat.le_antisymm hle (Nat.lt_of_le_of_ne hk.least.1.1 hne.symm)
  exact ⟨f, s, h, hk⟩

end Compile
end TripleSql
