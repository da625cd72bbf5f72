/-
# How a fragment grows

A fragment starts with the first placement of a graph pattern and takes the others one after the other. What it has
at any time is said by a piece: its tables, columns and aliases are those of the placements (`Grown`), its conditions
are grounded in the piece, and they enforce what is not left to wait (`Holding`). One more placement keeps both
(`Grown.step`, `Holding.step`), and so does a run of them (`joinEach_eq_ok`).

These need that no alias is taken twice. What placements add to a fragment can be said without that (`Extends`).
-/

import TripleSql.Compile.Fragment
import TripleSql.Proofs.Pieces
import TripleSql.Proofs.Steps
import TripleSql.Proofs.Trees

namespace TripleSql
namespace Compile

open Pattern Sql

/-- Adding columns adds just these. -/
theorem mem_addColumns {cs ds : List (String × Column)} {e : String × Column} :
    e ∈ addColumns cs ds ↔ e ∈ cs ∨ e ∈ ds := by
  induction ds generalizing cs with
  | nil => simp [addColumns]
  | cons d ds ih =>
    rw [addColumns, List.foldl_cons, ← addColumns, ih]
    split <;> grind

/-- Entries that are there already do not come first. -/
theorem lookup_addColumns (cs ds : List (String × Column)) (v : String) :
    (addColumns cs ds).lookup v = (cs ++ ds).lookup v := by
  induction ds generalizing cs with
  | nil => simp [addColumns]
  | cons d ds ih =>
    rw [addColumns, List.foldl_cons, ← addColumns, ih]
    split
    · next h =>
      obtain ⟨w, c⟩ := d
      obtain ⟨l, r, rfl⟩ := List.append_of_mem h
      simp only [List.append_assoc, List.cons_append, List.lookup_append, List.lookup_cons]
      cases v == w <;> simp
    · simp

namespace Fragment

/-- The conditions at the joins of a fragment and those that go outside. -/
def held (f : Fragment) : List Condition := f.tree.conditions ++ f.outer

/-- A node joins a fragment by the value of a constant, or by an equality with a column that its variable has. -/
theorem mem_slotConditions {b : Bindings} {f : Fragment} {slot : Node × Column} {e : Condition}
    (h : e ∈ f.slotConditions b slot) :
    (∃ x, slot.1 = .const x ∧ e = Condition.columnIs slot.2 x) ∨
      ∃ v d, slot.1 = .var v ∧ (b.column? v = some d ∨ f.column? v = some d) ∧
        e = Condition.columnsEqual slot.2 d := by
  obtain ⟨n, c⟩ := slot
  cases n with
  | const x => exact .inl ⟨x, rfl, by simpa [slotConditions] using h⟩
  | var v =>
    simp only [slotConditions, List.mem_map, List.mem_filter, List.mem_append, Option.mem_toList] at h
    obtain ⟨d, ⟨hd, -⟩, rfl⟩ := h
    exact .inr ⟨v, d, rfl, hd, rfl⟩

/-- The column of a variable is joined to the one that the variable is bound to. -/
theorem columnsEqual_mem_slotConditions {b : Bindings} {f : Fragment} {v : String} {c d : Column}
    (h : b.column? v = some d) (hne : d ≠ c) :
    Condition.columnsEqual c d ∈ f.slotConditions b (.var v, c) := by
  simp only [slotConditions, List.mem_map, List.mem_filter, List.mem_append, Option.mem_toList]
  exact ⟨d, ⟨.inl h, by simpa using hne⟩, rfl⟩

end Fragment

namespace Growth

/-- The columns of the fragment when a placement has joined it. -/
def columnsWith (p : Placement) (g : Growth) : List (String × Column) :=
  addColumns g.fragment.columns p.columns

/-- What is to be said when a placement joins: its nodes, the filters that are ready, the constants that wait. -/
def candidates (p : Placement) (g : Growth) (s : Scope) : List Condition :=
  p.slots.flatMap (g.fragment.slotConditions s.bindings) ++
    (g.pending.take s.bindings ((g.columnsWith p).map (·.1))).1 ++
    (s.constants.takeAll ((g.columnsWith p).map (·.2.tableAlias))).1

variable {p : Placement} {g : Growth} {s : Scope} {e : Condition}

/-- After a join a fragment holds what it held and some of the candidates. -/
theorem mem_held_join (h : e ∈ (g.join p s).1.fragment.held) :
    e ∈ g.fragment.held ∨ e ∈ g.candidates p s := by
  simp only [Fragment.held, join, JoinTree.conditions, Source.conditions, List.append_nil,
    List.mem_append] at h ⊢
  rcases h with (h | h) | h
  · exact .inl (.inl h)
  · exact .inr (Condition.mem_distinct (List.mem_filter.1 h).1)
  · rcases Condition.mem_pushAll h with h | h
    · exact .inl (.inr h)
    · exact .inr (Condition.mem_distinct (List.mem_filter.1 h).1)

/-- A join takes away nothing that a fragment holds. -/
theorem mem_held_join_of_mem (h : e ∈ g.fragment.held) : e ∈ (g.join p s).1.fragment.held := by
  simp only [Fragment.held, join, JoinTree.conditions, Source.conditions, List.append_nil,
    List.mem_append] at h ⊢
  exact h.imp .inl fun h => Condition.mem_pushAll_of_mem h _

/-- The conditions at the join of a placement: what is to be said of the joined tables alone. -/
def on (p : Placement) (g : Growth) (s : Scope) : List Condition :=
  (Condition.distinct (g.candidates p s)).filter (·.isScopedTo (g.fragment.tree.aliases ++ [p.table.aliasName]))

/-- A join adds one table and its conditions to the tree. -/
theorem tree_join :
    (g.join p s).1.fragment.tree = .join g.fragment.tree .inner (.table p.table) (g.on p s) := rfl

/-- **All that is to be said is said,** at the join if it reads the joined tables alone, and outside otherwise. -/
theorem has_join (h : e ∈ g.candidates p s) :
    Condition.Has (if e.isScopedTo (g.fragment.tree.aliases ++ [p.table.aliasName]) then g.on p s
      else (g.join p s).1.fragment.outer) e := by
  obtain ⟨d, hd, hde⟩ := Condition.has_distinct h
  rw [← Condition.isScopedTo_congr hde]
  split
  · next hs => exact ⟨d, List.mem_filter.2 ⟨hd, hs⟩, hde⟩
  · next hs =>
    obtain ⟨d', hd', hdd⟩ : Condition.Has (g.join p s).1.fragment.outer d :=
      Condition.has_pushAll (List.mem_filter.2 ⟨hd, by simpa using hs⟩)
    exact ⟨d', hd', Condition.isEquivalent_trans hdd hde⟩

/-- Of each candidate the fragment holds something equivalent after the join. -/
theorem has_held_join (h : e ∈ g.candidates p s) : Condition.Has (g.join p s).1.fragment.held e := by
  refine (has_join h).mono fun d hd => ?_
  rw [Fragment.held, tree_join]
  simp only [JoinTree.conditions, Source.conditions, List.append_nil, List.mem_append]
  split at hd
  · exact .inl (.inr hd)
  · exact .inr hd

end Growth

/-- **A fragment has the tables and columns of its piece,** and the scope is that after the piece. -/
structure Grown (cat : Catalog) (base : Scope) (x : Piece) (g : Growth) (s : Scope) : Prop where
  base_eq : x.base = base.bindings
  placed : ∀ p ∈ x.placements, p.Of cat
  fresh : s.Fresh
  taken : s.aliases.taken = base.aliases.taken ++ x.aliases
  bindings : s.bindings = x.bindings
  chain : g.fragment.tree.IsChain
  wellScoped : g.fragment.tree.WellScoped
  tables : g.fragment.tree.tables = x.placements.map Placement.table
  mem_columns : ∀ e, e ∈ g.fragment.columns ↔ e ∈ x.columns
  column? : ∀ v, g.fragment.column? v = x.columns.lookup v
  leftover : g.fragment.leftover = []

/-- **The conditions of a fragment are grounded in its piece and enforce it,** but for the first placement, the
filters that are left and the constants that wait. -/
structure Holding (base : Scope) (x : Piece) (g : Growth) (s : Scope) : Prop where
  grounds : ∀ e ∈ g.fragment.held, x.Grounds e
  waiting : ∀ {a e}, e ∈ s.constants.under a →
    e ∈ base.constants.under a ∨ ∃ c b, x.Constant c b ∧ a = c.tableAlias ∧ e = Condition.columnIs c b
  untouched : ∀ {a}, a ∉ x.aliases → s.constants.under a = base.constants.under a
  constants : ∀ {c a}, x.Constant c a → Condition.Has g.fragment.held (Condition.columnIs c a) ∨
    Condition.Has (s.constants.under c.tableAlias) (Condition.columnIs c a)
  columns : ∀ {p v c}, p ∈ x.rest → (v, c) ∈ p.columns → ∃ d, x.bindings.column? v = some d ∧
    (d = c ∨ Condition.Has g.fragment.held (Condition.columnsEqual c d))
  pending : ∀ f ∈ g.pending.filters, f ∈ x.filters
  filters : ∀ f ∈ x.filters, f ∈ g.pending.filters ∨
    ∃ e, conditionOf? x.bindings.column? f = some e ∧ Condition.Has g.fragment.held e

namespace Scope

/-- Placing a triple pattern keeps aliases apart. -/
theorem Fresh.place {cat : Catalog} {t : Triple} {s s' : Scope} {p : Placement} (hs : s.Fresh)
    (h : place cat t s = .ok p s') : s'.Fresh := by
  obtain ⟨-, hp, hfree, htaken, hbindings, hconstants⟩ := place_eq_ok h
  refine ⟨?_, fun {v c} hv => ?_, fun {a e} he => ?_⟩
  · rw [htaken, List.nodup_append]
    exact ⟨hs.nodup, List.nodup_singleton _, fun a ha b hb hab => hfree (List.mem_singleton.1 hb ▸ hab ▸ ha)⟩
  · rw [htaken, List.mem_append, List.mem_singleton]
    rw [hbindings, Bindings.column?_bindAll] at hv
    cases hb : s.bindings.column? v with
    | some d =>
      rw [hb, Option.some_or] at hv
      exact .inl (hs.bindings (hb.trans hv))
    | none =>
      rw [hb, Option.none_or] at hv
      exact .inr (hp.tableAlias_eq_of_mem_columns (Placement.mem_columns_of_column? hv))
  · rw [htaken, List.mem_append, List.mem_singleton]
    rcases Constants.mem_under_addAll (hconstants ▸ he) with he | ⟨c, x, hc, rfl, -⟩
    · exact .inl (hs.constants he)
    · exact .inr (hp.tableAlias_eq (Placement.mem_constants.1 hc))

/-- Taking constants keeps aliases apart. -/
theorem Fresh.takeAll {s : Scope} (hs : s.Fresh) (as : List String) :
    { s with constants := (s.constants.takeAll as).2 }.Fresh where
  nodup := hs.nodup
  bindings := hs.bindings
  constants {a e} he := by
    rw [Constants.under_takeAll] at he
    split at he
    · cases he
    · exact hs.constants he

end Scope

namespace Grown

variable {cat : Catalog} {base : Scope} {x : Piece} {g : Growth} {s s' : Scope} {p : Placement} {t : Triple}

/-- One placement more, and the fragment is that of a longer piece. -/
theorem step (h : Grown cat base x g s) (hp : place cat t s = .ok p s') :
    Grown cat base (x.push p) (g.join p s').1 (g.join p s').2 := by
  obtain ⟨-, hof, -, htaken, hbindings, -⟩ := place_eq_ok hp
  have hcolumns : (g.join p s').1.fragment.columns = addColumns g.fragment.columns p.columns := rfl
  constructor
  case base_eq => exact h.base_eq
  case placed =>
    intro q hq
    rcases Piece.mem_placements_push.1 hq with hq | rfl
    · exact h.placed q hq
    · exact hof
  case fresh => exact (h.fresh.place hp).takeAll _
  case taken =>
    rw [Piece.aliases_push, ← List.append_assoc, ← h.taken]
    exact htaken
  case bindings =>
    rw [Piece.bindings_push, ← h.bindings]
    exact hbindings
  case chain => exact h.chain
  case wellScoped =>
    refine ⟨h.wellScoped, trivial, fun c hc => ?_⟩
    exact Condition.isScopedTo_iff.1 (List.mem_filter.1 hc).2
  case tables =>
    rw [Piece.placements_push, List.map_append, ← h.tables]
    rfl
  case mem_columns =>
    intro e
    rw [hcolumns, mem_addColumns, h.mem_columns, Piece.columns_push, List.mem_append]
  case column? =>
    intro v
    have := h.column? v
    rw [Fragment.column?] at this ⊢
    rw [hcolumns, lookup_addColumns, List.lookup_append, this, Piece.columns_push, List.lookup_append]
  case leftover => exact h.leftover

end Grown

namespace Holding

variable {cat : Catalog} {base : Scope} {x : Piece} {g : Growth} {s s' : Scope} {p : Placement} {t : Triple}
  {e : Condition}

/-- What waits after a placement waited before or is a constant of the placement. -/
theorem waiting_place (h : Holding base x g s) (hp : place cat t s = .ok p s') {a : String}
    (he : e ∈ s'.constants.under a) : e ∈ base.constants.under a ∨
      ∃ c b, (x.push p).Constant c b ∧ a = c.tableAlias ∧ e = Condition.columnIs c b := by
  obtain ⟨-, -, -, -, -, hconstants⟩ := place_eq_ok hp
  rcases Constants.mem_under_addAll (hconstants ▸ he) with he | ⟨c, b, hc, ha, rfl⟩
  · refine (h.waiting he).imp_right fun ⟨c, b, hc, hca⟩ => ⟨c, b, Piece.constant_push.2 (.inl hc), hca⟩
  · exact .inr ⟨c, b, Piece.constant_push.2 (.inr (Placement.mem_constants.1 hc)), ha, rfl⟩

/-- The constants that a join takes are those of the longer piece. -/
theorem constant_of_mem_takeAll (h : Holding base x g s) (hg : Grown cat base x g s) (hbase : base.Fresh)
    (hp : place cat t s = .ok p s')
    (he : e ∈ (s'.constants.takeAll ((g.columnsWith p).map (·.2.tableAlias))).1) :
    ∃ c b, (x.push p).Constant c b ∧ e = Condition.columnIs c b := by
  have hgrown := hg.step hp
  obtain ⟨a, ha, he⟩ := Constants.mem_takeAll.1 he
  obtain ⟨⟨v, c⟩, hc, rfl⟩ := List.mem_map.1 ha
  have hca := Piece.tableAlias_mem hgrown.placed ((hgrown.mem_columns _).1 hc)
  have hnot := hgrown.fresh.not_mem_of_taken hgrown.taken hca
  obtain ⟨d, b, hd, -, rfl⟩ := (h.waiting_place hp he).resolve_left fun he => hnot (hbase.constants he)
  exact ⟨d, b, hd, rfl⟩

/-- **Whatever is to be said when a placement joins is grounded** in the longer piece. -/
theorem grounds_candidates (h : Holding base x g s) (hg : Grown cat base x g s) (hbase : base.Fresh)
    (hp : place cat t s = .ok p s') (he : e ∈ g.candidates p s') : (x.push p).Grounds e := by
  obtain ⟨-, -, -, -, hbindings, -⟩ := place_eq_ok hp
  rw [hg.bindings, ← Piece.bindings_push] at hbindings
  rcases List.mem_append.1 he with he | he
  · rcases List.mem_append.1 he with he | he
    · obtain ⟨slot, hslot, he⟩ := List.mem_flatMap.1 he
      rcases Fragment.mem_slotConditions he with ⟨a, hn, rfl⟩ | ⟨v, d, hn, hd, rfl⟩
      · exact .constant (Piece.constant_push.2 (.inr (hn ▸ hslot)))
      · have hc : (x.push p).Column v slot.2 :=
          Piece.column_of_mem_rest (List.mem_append_right _ (List.mem_cons_self ..))
            (Placement.mem_columns.2 (hn ▸ hslot))
        refine .equality hc ?_
        rcases hd with hd | hd
        · exact Piece.column_of_bindings (hbindings ▸ hd)
        · exact (Piece.column_of_lookup (hg.column? v ▸ hd)).push p
    · obtain ⟨f, hf, -, hfe⟩ := Pending.mem_take he
      exact .filter (h.pending f hf) hfe fun v c hv => Piece.column_of_bindings (hbindings ▸ hv)
  · obtain ⟨c, b, hc, rfl⟩ := h.constant_of_mem_takeAll hg hbase hp he
    exact .constant hc

/-- What waits under an alias that is not joined is left by a join as it was. -/
theorem under_join (h : Holding base x g s) (hg : Grown cat base x g s) (hp : place cat t s = .ok p s') {a : String}
    (ha : a ∉ (x.push p).aliases) : (g.join p s').2.constants.under a = base.constants.under a := by
  have hgrown := hg.step hp
  obtain ⟨-, hof, -, -, -, hconstants⟩ := place_eq_ok hp
  have hnot : a ∉ (g.columnsWith p).map (·.2.tableAlias) := fun hm => by
    obtain ⟨⟨v, c⟩, hc, rfl⟩ := List.mem_map.1 hm
    exact ha (Piece.tableAlias_mem hgrown.placed ((hgrown.mem_columns _).1 hc))
  rw [Piece.aliases_push, List.mem_append, List.mem_singleton, not_or] at ha
  change (s'.constants.takeAll ((g.columnsWith p).map (·.2.tableAlias))).2.under a = _
  rw [Constants.under_takeAll, if_neg hnot, hconstants, Constants.under_addAll_of_ne, h.untouched ha.1]
  exact fun e he hea => ha.2 (hea.symm.trans (hof.tableAlias_eq (Placement.mem_constants.1 he)))

/-- A constant waits under its alias after the placement; there the join takes it or leaves it. -/
theorem has_constant_join (h : Holding base x g s) (hp : place cat t s = .ok p s') {c : Column} {a : String}
    (hc : (x.push p).Constant c a) : Condition.Has (g.join p s').1.fragment.held (Condition.columnIs c a) ∨
      Condition.Has ((g.join p s').2.constants.under c.tableAlias) (Condition.columnIs c a) := by
  obtain ⟨-, -, -, -, -, hconstants⟩ := place_eq_ok hp
  have hwait : Condition.Has (g.join p s').1.fragment.held (Condition.columnIs c a) ∨
      Condition.Has (s'.constants.under c.tableAlias) (Condition.columnIs c a) := by
    rw [hconstants]
    rcases Piece.constant_push.1 hc with hc | hc
    · exact (h.constants hc).imp (·.mono fun _ => Growth.mem_held_join_of_mem)
        (·.mono fun e he => Constants.mem_under_addAll_of_mem he _)
    · exact .inr (Constants.has_under_addAll (Placement.mem_constants.2 hc))
  refine hwait.elim .inl fun hh => ?_
  change _ ∨ Condition.Has ((s'.constants.takeAll _).2.under c.tableAlias) _
  rw [Constants.under_takeAll]
  split
  · next hm =>
    exact .inl (hh.trans fun e he => Growth.has_held_join
      (List.mem_append_right _ (Constants.mem_takeAll.2 ⟨_, hm, he⟩)))
  · exact .inr hh

/-- A column of the placement equals the one that its variable is bound to. -/
theorem has_column_join (hg : Grown cat base x g s) (hp : place cat t s = .ok p s') {v : String} {c : Column}
    (hc : (v, c) ∈ p.columns) : ∃ d, (x.push p).bindings.column? v = some d ∧
      (d = c ∨ Condition.Has (g.join p s').1.fragment.held (Condition.columnsEqual c d)) := by
  obtain ⟨-, -, -, -, hbindings, -⟩ := place_eq_ok hp
  rw [hg.bindings, ← Piece.bindings_push] at hbindings
  have hmem : (v, c) ∈ (x.push p).columns := by
    rw [Piece.columns_push]
    exact List.mem_append_right _ hc
  obtain ⟨d, hd⟩ := Option.isSome_iff_exists.1 (Piece.isSome_bindings_of_mem hmem)
  refine ⟨d, hd, (em (d = c)).imp_right fun hne => Growth.has_held_join ?_⟩
  refine List.mem_append_left _ (List.mem_append_left _ (List.mem_flatMap.2 ⟨(.var v, c), ?_, ?_⟩))
  · exact Placement.mem_columns.1 hc
  · exact Fragment.columnsEqual_mem_slotConditions (hbindings ▸ hd) hne

/-- **One placement more keeps all conditions grounded and everything enforced.** -/
theorem step (h : Holding base x g s) (hg : Grown cat base x g s) (hbase : base.Fresh)
    (hp : place cat t s = .ok p s') : Holding base (x.push p) (g.join p s').1 (g.join p s').2 := by
  obtain ⟨-, -, -, -, hbindings, -⟩ := place_eq_ok hp
  rw [hg.bindings, ← Piece.bindings_push] at hbindings
  -- Both what the fragment holds and what its variables are bound to only grow.
  have keep : ∀ {e}, Condition.Has g.fragment.held e → Condition.Has (g.join p s').1.fragment.held e :=
    fun he => he.mono fun _ => Growth.mem_held_join_of_mem
  have grow : ∀ {v c}, x.bindings.column? v = some c → (x.push p).bindings.column? v = some c := fun hv => by
    rw [Piece.bindings_push]
    exact Bindings.column?_bindAll_of_column? hv _
  constructor
  case grounds =>
    intro e he
    rcases Growth.mem_held_join he with he | he
    · exact (h.grounds e he).push p
    · exact h.grounds_candidates hg hbase hp he
  case waiting =>
    intro a e he
    change e ∈ (s'.constants.takeAll _).2.under a at he
    rw [Constants.under_takeAll] at he
    split at he
    · cases he
    · exact h.waiting_place hp he
  case untouched => exact h.under_join hg hp
  case constants => exact h.has_constant_join hp
  case columns =>
    intro q v c hq hc
    rcases List.mem_append.1 hq with hq | hq
    · obtain ⟨d, hd, hdc⟩ := h.columns hq hc
      exact ⟨d, grow hd, hdc.imp_right keep⟩
    · obtain rfl := List.mem_singleton.1 hq
      exact has_column_join hg hp hc
  case pending => exact fun f hf => h.pending f (Pending.mem_of_mem_take hf)
  case filters =>
    intro f hf
    rcases h.filters f hf with hf | ⟨e, he, hh⟩
    · refine (Pending.mem_or_has_take (b := s'.bindings) ((g.columnsWith p).map (·.1)) hf).imp_right ?_
      intro ⟨e, he, hh⟩
      exact ⟨e, hbindings ▸ he, hh.trans fun d hd => Growth.has_held_join
        (List.mem_append_left _ (List.mem_append_right _ hd))⟩
    · exact .inr ⟨e, conditionOf?_mono (fun v c hv => grow hv) he, keep hh⟩

end Holding

/-- **What placements add to a fragment,** whatever the scope is: bindings, and each a table that is joined on some
conditions. What stands outside the fragment stays there. -/
structure Extends (g : Growth) (s : Scope) (ps : List Placement) (g' : Growth) (s' : Scope) : Prop where
  bindings : s'.bindings = s.bindings.bindAll (ps.flatMap Placement.columns)
  tables : g'.fragment.tree.tables = g.fragment.tree.tables ++ ps.map Placement.table
  joins : ∃ js, g'.fragment.tree.joins = g.fragment.tree.joins ++ js ∧
    List.Forall₂ (fun p j => ∃ on, j = (JoinKind.inner, Source.table p.table, on)) ps js
  outer : ∀ e ∈ g.fragment.outer, e ∈ g'.fragment.outer
  leftover : g'.fragment.leftover = g.fragment.leftover

namespace Extends

variable {cat : Catalog} {g g' : Growth} {s s₁ s' : Scope} {ps : List Placement} {p : Placement} {t : Triple}
  {ts : List Triple}

/-- No placement adds nothing. -/
theorem refl (g : Growth) (s : Scope) : Extends g s [] g s :=
  ⟨rfl, by simp, ⟨[], by simp, .nil⟩, fun _ => id, rfl⟩

/-- A placement before others. -/
theorem cons (hp : place cat t s = .ok p s₁) (h : Extends (g.join p s₁).1 (g.join p s₁).2 ps g' s') :
    Extends g s (p :: ps) g' s' := by
  obtain ⟨-, -, -, -, hbindings, -⟩ := place_eq_ok hp
  obtain ⟨js, hjs, hps⟩ := h.joins
  constructor
  case bindings =>
    rw [h.bindings, List.flatMap_cons, Bindings.bindAll_append, ← hbindings]
    rfl
  case tables =>
    rw [h.tables, List.map_cons, List.append_cons]
    rfl
  case joins =>
    rw [Growth.join, JoinTree.joins, List.append_assoc, List.singleton_append] at hjs
    exact ⟨_, hjs, .cons ⟨_, rfl⟩ hps⟩
  case outer => exact fun e he => h.outer e (Condition.mem_pushAll_of_mem he _)
  case leftover => exact h.leftover

/-- **A run adds a placement for each triple pattern.** -/
theorem joinEach (h : Growth.joinEach cat g ts s = .ok g' s') :
    ∃ ps, ps.map Placement.triple = ts ∧ (∀ p ∈ ps, p.Of cat) ∧ Extends g s ps g' s' := by
  induction ts generalizing g s with
  | nil =>
    obtain ⟨rfl, rfl⟩ := Step.pure_eq_ok.1 h
    exact ⟨[], rfl, nofun, refl g s⟩
  | cons t ts ih =>
    simp only [Growth.joinEach, Step.bind_eq_ok, Step.modifyGet_eq_ok] at h
    obtain ⟨p, s₁, hp, g₁, s₂, hj, h⟩ := h
    obtain ⟨rfl, rfl⟩ := Prod.ext_iff.1 hj
    obtain ⟨ps, hps, hof, hext⟩ := ih h
    obtain ⟨htriple, hpof, -⟩ := place_eq_ok hp
    exact ⟨p :: ps, by rw [List.map_cons, htriple, hps], List.forall_mem_cons.2 ⟨hpof, hof⟩, cons hp hext⟩

/-- A fragment that something has joined is a join. -/
theorem tree_ne_base (h : Growth.joinEach cat g ts s = .ok g' s') (hne : ts ≠ []) (r : Source) :
    g'.fragment.tree ≠ .base r := fun hr => by
  obtain ⟨ps, rfl, -, hext⟩ := joinEach h
  obtain ⟨js, hjs, hps⟩ := hext.joins
  cases hps with
  | nil => exact hne rfl
  | cons =>
    rw [hr] at hjs
    exact List.append_ne_nil_of_right_ne_nil _ (List.cons_ne_nil _ _) hjs.symm

end Extends

end Compile
end TripleSql
