/-
# What a compiled fragment is

A graph pattern that compiles gives a fragment that is said by one piece (`fragment_eq_ok`): its placements are those of
the triple patterns in joining order, its conditions are grounded in the piece, and together with the constants that
still wait they enforce everything but the columns of the first triple pattern, which are left to where the fragment
is joined.
-/

import TripleSql.Proofs.Growth
import TripleSql.Proofs.JoinOrder

namespace TripleSql
namespace Compile

open Pattern Sql

namespace Bindings

/-- The bound variables are those with a column. -/
theorem mem_vars {b : Bindings} {v : String} : v ∈ b.vars ↔ (b.column? v).isSome = true := by
  simp only [vars, column?, List.mem_map, List.lookup_isSome_iff, beq_iff_eq]
  constructor
  · rintro ⟨e, he, rfl⟩
    exact ⟨e, he, rfl⟩
  · rintro ⟨e, he, rfl⟩
    exact ⟨e, he, rfl⟩

/-- A variable is bound after a list was if it was before or is on the list. -/
theorem mem_vars_bindAll {b : Bindings} {es : List (String × Column)} {v : String} :
    v ∈ (b.bindAll es).vars ↔ v ∈ b.vars ∨ ∃ c, (v, c) ∈ es := by
  rw [mem_vars, mem_vars, column?_bindAll, Option.isSome_or, Bool.or_eq_true, List.lookup_isSome_iff]
  refine or_congr_right ⟨fun ⟨e, he, hv⟩ => ?_, fun ⟨c, hc⟩ => ⟨_, hc, by simp⟩⟩
  exact ⟨e.2, beq_iff_eq.1 hv ▸ he⟩

end Bindings

/-- The variables of a placement are those of its triple pattern. -/
theorem Placement.mem_vars {p : Placement} {v : String} : v ∈ p.triple.vars ↔ ∃ c, (v, c) ∈ p.columns := by
  simp only [mem_columns, mem_slots, Triple.vars, List.mem_filterMap, List.mem_cons, List.not_mem_nil,
    or_false, Prod.mk.injEq]
  constructor
  · rintro ⟨n, hn, hv⟩
    cases n with
    | const x => cases hv
    | var w =>
      cases hv
      rcases hn with hn | hn
      · exact ⟨_, .inl ⟨hn, rfl⟩⟩
      · exact ⟨_, .inr ⟨hn, rfl⟩⟩
  · rintro ⟨c, ⟨hv, -⟩ | ⟨hv, -⟩⟩
    · exact ⟨_, .inl rfl, by rw [← hv]; rfl⟩
    · exact ⟨_, .inr rfl, by rw [← hv]; rfl⟩

namespace Growth

/-- The filters that the fragment of a lone triple pattern is left with, its own columns before others. -/
def leftoverColumn? (first : Placement) (b : Bindings) (v : String) : Option Column :=
  first.column? v <|> b.column? v

/-- Finishing keeps the fragment and turns what waits into conditions that are left over. -/
theorem finish_eq_ok {first : Placement} {b : Bindings} {g : Growth} {f : Fragment}
    (h : g.finish first b = .ok f) (hl : g.fragment.leftover = []) :
    f.tree = g.fragment.tree ∧ f.columns = g.fragment.columns ∧ f.outer = g.fragment.outer ∧
      (∀ e ∈ f.leftover, ∃ q ∈ g.pending.filters, conditionOf? (leftoverColumn? first b) q = some e) ∧
      ∀ q ∈ g.pending.filters, ∃ e, conditionOf? (leftoverColumn? first b) q = some e ∧
        Condition.Has f.leftover e := by
  unfold finish at h
  split at h
  · next he =>
    cases h
    refine ⟨rfl, rfl, rfl, fun e he => ?_, fun q hq => ?_⟩
    · rw [hl] at he
      cases he
    · rw [List.isEmpty_iff.1 he] at hq
      cases hq
  · split at h
    · cases h
    · simp only [bind_eq_ok_except, Pending.conditions, map_eq_ok_except, mapM_eq_ok_except] at h
      obtain ⟨_, ⟨es, hes, rfl⟩, h⟩ := h
      cases h
      have render : ∀ {q e}, Pending.conditionOf (leftoverColumn? first b) q = .ok e →
          conditionOf? (leftoverColumn? first b) q = some e := fun {q e} hq => by
        unfold Pending.conditionOf at hq
        split at hq
        · next c hc => exact hc.trans (congrArg some (Except.ok.inj hq))
        · cases hq
      refine ⟨rfl, rfl, rfl, fun e he => ?_, fun q hq => ?_⟩
      · obtain ⟨q, hq, hqe⟩ := exists_left_of_forall₂ hes (Condition.mem_distinct he)
        exact ⟨q, hq, render hqe⟩
      · obtain ⟨e, he, hqe⟩ := exists_right_of_forall₂ hes hq
        exact ⟨e, render hqe, Condition.has_distinct he⟩

end Growth

namespace Fragment

/-- All conditions of a fragment. -/
def conditions (f : Fragment) : List Condition := f.held ++ f.leftover

end Fragment

/-- **The fragment of a graph pattern is said by a piece;** `base` is the scope before it and `s` the scope after it. -/
structure Compiled (cat : Catalog) (gp : GraphPattern) (base : Scope) (x : Piece) (f : Fragment)
    (s : Scope) : Prop where
  base_eq : x.base = base.bindings
  triples : x.placements.map Placement.triple = joinOrder base.bindings.vars gp
  perm : (joinOrder base.bindings.vars gp).Perm gp.triples
  accepted : gp.filters.mapM Pending.accept = .ok x.filters
  placed : ∀ p ∈ x.placements, p.Of cat
  fresh : s.Fresh
  taken : s.aliases.taken = base.aliases.taken ++ x.aliases
  bindings : s.bindings = x.bindings
  chain : f.tree.IsChain
  wellScoped : f.tree.WellScoped
  tables : f.tree.tables = x.placements.map Placement.table
  mem_columns : ∀ e, e ∈ f.columns ↔ e ∈ x.columns
  grounds : ∀ e ∈ f.conditions, x.Grounds e
  waiting : ∀ {a e}, e ∈ s.constants.under a →
    e ∈ base.constants.under a ∨ ∃ c b, x.Constant c b ∧ a = c.tableAlias ∧ e = Condition.columnIs c b
  untouched : ∀ {a}, a ∉ x.aliases → s.constants.under a = base.constants.under a
  constants : ∀ {c a}, x.Constant c a → Condition.Has f.conditions (Condition.columnIs c a) ∨
    Condition.Has (s.constants.under c.tableAlias) (Condition.columnIs c a)
  columns : ∀ {p v c}, p ∈ x.rest → (v, c) ∈ p.columns → ∃ d, x.bindings.column? v = some d ∧
    (d = c ∨ Condition.Has f.conditions (Condition.columnsEqual c d))
  filters : ∀ q ∈ x.filters, ∃ column? e, conditionOf? column? q = some e ∧
    Condition.Has f.conditions e ∧ ∀ v c, column? v = some c → x.Column v c

section Run

variable {cat : Catalog} {base : Scope} {x : Piece} {g g' : Growth} {s s' : Scope}

/-- The fragment of the first placement alone. -/
theorem grown_single {t : Triple} {p : Placement} {filters : List Filter} (hbase : base.Fresh)
    (hp : place cat t base = .ok p s) :
    Grown cat base ⟨base.bindings, p, [], filters⟩ ⟨.single p, ⟨filters⟩⟩ s ∧
      Holding base ⟨base.bindings, p, [], filters⟩ ⟨.single p, ⟨filters⟩⟩ s := by
  obtain ⟨-, hof, -, htaken, hbindings, hconstants⟩ := place_eq_ok hp
  have hcolumns : (⟨base.bindings, p, [], filters⟩ : Piece).columns = p.columns := by
    simp [Piece.columns, Piece.placements]
  have hconstant : ∀ {c a}, (⟨base.bindings, p, [], filters⟩ : Piece).Constant c a ↔
      (.const a, c) ∈ p.slots := by
    simp [Piece.Constant, Piece.placements]
  constructor
  case left =>
    refine {
      base_eq := rfl, placed := ?placed, fresh := hbase.place hp, taken := htaken, bindings := ?bindings
      chain := trivial, wellScoped := trivial, tables := rfl, mem_columns := ?mem_columns, column? := ?column?
      leftover := rfl }
    case placed =>
      intro q hq
      rw [List.mem_singleton.1 hq]
      exact hof
    case bindings => rw [hbindings, Piece.bindings, hcolumns]
    case mem_columns =>
      intro e
      rw [hcolumns]
      rfl
    case column? =>
      intro v
      rw [hcolumns]
      rfl
  case right =>
    -- no condition is held yet, so every constant still waits and every filter is still pending
    refine {
      grounds := ?grounds, waiting := ?waiting, untouched := ?untouched, constants := ?constants
      columns := ?columns, pending := fun q hq => hq, filters := fun q hq => .inl hq }
    case grounds =>
      intro e he
      simp [Fragment.held, Fragment.single, JoinTree.conditions, Source.conditions] at he
    case waiting =>
      intro a e he
      rcases Constants.mem_under_addAll (hconstants ▸ he) with he | ⟨c, b, hc, ha, rfl⟩
      · exact .inl he
      · exact .inr ⟨c, b, hconstant.2 (Placement.mem_constants.1 hc), ha, rfl⟩
    case untouched =>
      intro a ha
      rw [hconstants, Constants.under_addAll_of_ne fun e he hea => ha (List.mem_singleton.2 ?_)]
      exact hea.symm.trans (hof.tableAlias_eq (Placement.mem_constants.1 he))
    case constants =>
      intro c a hc
      rw [hconstants]
      exact .inr (Constants.has_under_addAll (Placement.mem_constants.2 (hconstant.1 hc)))
    case columns =>
      intro q v c hq
      cases hq

/-- **Growing placement by placement** adds a placement for each triple pattern. -/
theorem joinEach_eq_ok {ts : List Triple} (hbase : base.Fresh) (hg : Grown cat base x g s)
    (hh : Holding base x g s) (h : Growth.joinEach cat g ts s = .ok g' s') :
    ∃ ps, ps.map Placement.triple = ts ∧ Grown cat base { x with rest := x.rest ++ ps } g' s' ∧
      Holding base { x with rest := x.rest ++ ps } g' s' := by
  induction ts generalizing x g s with
  | nil =>
    obtain ⟨rfl, rfl⟩ := Step.pure_eq_ok.1 h
    exact ⟨[], rfl, by rwa [List.append_nil], by rwa [List.append_nil]⟩
  | cons t ts ih =>
    simp only [Growth.joinEach, Step.bind_eq_ok, Step.modifyGet_eq_ok] at h
    obtain ⟨p, s₁, hp, g₁, s₂, hj, h⟩ := h
    have hg₁ := hg.step hp
    have hh₁ := hh.step hg hbase hp
    rw [hj] at hg₁ hh₁
    obtain ⟨ps, hps, hg', hh'⟩ := ih hg₁ hh₁ h
    refine ⟨p :: ps, by rw [List.map_cons, hps, (place_eq_ok hp).1], ?_⟩
    rw [Piece.push, List.append_assoc] at hg' hh'
    exact ⟨hg', hh'⟩

end Run

/-- Placing a triple pattern makes its variables known. -/
theorem mem_vars_place {cat : Catalog} {t : Triple} {p : Placement} {s s' : Scope} (h : place cat t s = .ok p s')
    (v : String) : v ∈ s'.bindings.vars ↔ v ∈ s.bindings.vars ∨ v ∈ t.vars := by
  obtain ⟨htriple, -, -, -, hbindings, -⟩ := place_eq_ok h
  rw [hbindings, Bindings.mem_vars_bindAll, ← htriple, Placement.mem_vars]

/-- What is reached after a triple pattern is placed is reached from its variables, too. -/
theorem arrange_place {cat : Catalog} {t : Triple} {p : Placement} {s s' : Scope} (h : place cat t s = .ok p s')
    (ts : List Triple) : arrange s'.bindings.vars ts = arrange (s.bindings.vars ++ t.vars) ts :=
  arrange_congr (fun v => by rw [mem_vars_place h, List.mem_append]) ts

/-- **When a graph pattern compiles:** its filters may wait, the first triple pattern is placed, all others are reached
and joined in order, and no filter is left without a place. -/
theorem fragment_eq_ok_iff {cat : Catalog} {gp : GraphPattern} {s s' : Scope} {f : Fragment} :
    fragment cat gp s = .ok f s' ↔ ∃ t ts pending first s₁ g, gp.triples = t :: ts ∧
      Pending.ofFilters gp.filters = .ok pending ∧ place cat t s = .ok first s₁ ∧
      Growth.joinEach cat ⟨.single first, pending⟩ (arrange (s.bindings.vars ++ t.vars) ts).1 s₁ = .ok g s' ∧
      (arrange (s.bindings.vars ++ t.vars) ts).2 = [] ∧ g.finish first s'.bindings = .ok f := by
  constructor
  · intro h
    cases hgp : gp.triples with
    | nil =>
      rw [fragment, hgp] at h
      exact absurd h Step.throw_ne_ok
    | cons t ts =>
      rw [fragment, hgp] at h
      simp only [Step.bind_eq_ok, Step.ofExcept_eq_ok, Step.get_eq_ok] at h
      obtain ⟨pending, _, ⟨hpending, rfl⟩, first, s₁, hfirst, _, _, ⟨rfl, rfl⟩, g, s₂, hg, _, _, ⟨rfl, rfl⟩, h⟩ := h
      rw [arrange_place hfirst] at hg h
      split at h
      · next hall =>
        obtain ⟨hfinish, rfl⟩ := Step.ofExcept_eq_ok.1 h
        exact ⟨t, ts, pending, first, s₁, g, rfl, hpending, hfirst, hg, hall, hfinish⟩
      · exact absurd h Step.throw_ne_ok
  · rintro ⟨t, ts, pending, first, s₁, g, hgp, hpending, hfirst, hg, hall, hfinish⟩
    rw [← arrange_place hfirst] at hg hall
    rw [fragment, hgp]
    simp only [Step.bind_eq_ok, Step.ofExcept_eq_ok, Step.get_eq_ok]
    refine ⟨pending, _, ⟨hpending, rfl⟩, first, s₁, hfirst, _, _, ⟨rfl, rfl⟩, g, s', hg, _, _, ⟨rfl, rfl⟩, ?_⟩
    rw [if_pos hall]
    exact Step.ofExcept_eq_ok.2 ⟨hfinish, rfl⟩

/-- The columns that the filters of a lone triple pattern are rendered with stand for their variables. -/
theorem Grown.column_of_leftover {cat : Catalog} {base s : Scope} {x : Piece} {g : Growth} {v : String} {c : Column}
    (hg : Grown cat base x g s) (hv : Growth.leftoverColumn? x.first s.bindings v = some c) : x.Column v c := by
  rcases (Option.orElse_eq_some ..).1 hv with hv | ⟨-, hv⟩
  · exact .inr (.inl hv)
  · exact Piece.column_of_bindings (hg.bindings ▸ hv)

/-- **A grown fragment is that of a graph pattern,** once its filters have a place. -/
theorem Grown.compiled {cat : Catalog} {gp : GraphPattern} {base s : Scope} {x : Piece} {g : Growth} {f : Fragment}
    (hg : Grown cat base x g s) (hh : Holding base x g s)
    (htriples : x.placements.map Placement.triple = joinOrder base.bindings.vars gp)
    (hperm : (joinOrder base.bindings.vars gp).Perm gp.triples)
    (haccept : gp.filters.mapM Pending.accept = .ok x.filters) (hfinish : g.finish x.first s.bindings = .ok f) :
    Compiled cat gp base x f s := by
  obtain ⟨htree, hcolumns, houter, hleft, hleft'⟩ := Growth.finish_eq_ok hfinish hg.leftover
  have hheld : f.held = g.fragment.held := by rw [Fragment.held, htree, houter, Fragment.held]
  -- Finishing only adds what is left over, so what was enforced at a join still is.
  have keep : ∀ {e}, Condition.Has g.fragment.held e → Condition.Has f.conditions e := fun he =>
    he.mono fun e he => List.mem_append_left _ (hheld ▸ he)
  have hcolumn : ∀ v c, Growth.leftoverColumn? x.first s.bindings v = some c → x.Column v c := fun _ _ =>
    hg.column_of_leftover
  constructor
  case base_eq => exact hg.base_eq
  case triples => exact htriples
  case perm => exact hperm
  case accepted => exact haccept
  case placed => exact hg.placed
  case fresh => exact hg.fresh
  case taken => exact hg.taken
  case bindings => exact hg.bindings
  case chain => exact htree ▸ hg.chain
  case wellScoped => exact htree ▸ hg.wellScoped
  case tables => exact htree ▸ hg.tables
  case mem_columns => exact fun e => hcolumns ▸ hg.mem_columns e
  case grounds =>
    intro e he
    rcases List.mem_append.1 he with he | he
    · exact hh.grounds e (hheld ▸ he)
    · obtain ⟨q, hq, hqe⟩ := hleft e he
      exact .filter (hh.pending q hq) hqe hcolumn
  case waiting => exact hh.waiting
  case untouched => exact hh.untouched
  case constants => exact fun hc => (hh.constants hc).imp_left keep
  case columns =>
    intro p v c hp hc
    obtain ⟨d, hd, hdc⟩ := hh.columns hp hc
    exact ⟨d, hd, hdc.imp_right keep⟩
  case filters =>
    intro q hq
    rcases hh.filters q hq with hq | ⟨e, he, hhe⟩
    · obtain ⟨e, he, hhe⟩ := hleft' q hq
      exact ⟨_, e, he, hhe.mono fun _ => List.mem_append_right _, hcolumn⟩
    · exact ⟨_, e, he, keep hhe, fun v c => Piece.column_of_bindings⟩

/-- **What compiling a graph pattern does.** -/
theorem fragment_eq_ok {cat : Catalog} {gp : GraphPattern} {base s : Scope} {f : Fragment}
    (hbase : base.Fresh) (h : fragment cat gp base = .ok f s) : ∃ x, Compiled cat gp base x f s := by
  obtain ⟨t, ts, pending, first, s₁, g, hgp, hpending, hfirst, hg, hall, hfinish⟩ := fragment_eq_ok_iff.1 h
  obtain ⟨filters, hfilters, rfl⟩ := map_eq_ok_except.1 hpending
  obtain ⟨hfirst_triple, -, -, -, -, -⟩ := place_eq_ok hfirst
  obtain ⟨hg₀, hh₀⟩ := grown_single hbase hfirst
  obtain ⟨ps, hps, hg, hh⟩ := joinEach_eq_ok hbase hg₀ hh₀ hg
  refine ⟨⟨base.bindings, first, [] ++ ps, filters⟩, hg.compiled hh ?_ (joinOrder_perm hgp hall) hfilters hfinish⟩
  rw [Piece.placements, List.map_cons, hfirst_triple, List.nil_append, hps, joinOrder, hgp]

end Compile
end TripleSql
