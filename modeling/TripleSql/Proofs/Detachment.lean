/-
# Elements that nothing connects

An element after the first required one arrives where others stand (`Arrives`). It brings conditions of three kinds: its
variables that have a column there equal that column, filters and equalities of its own that read another table stand
outside its fragment, and the filters of a lone triple pattern are left over. Of the first two kinds there is one only if
there is one that connects the element, that is, reads a table of the element and one that stands there already. So the
element is refused as detached exactly if none of these connects it (`Arrives.refused_iff`), and the query with it
(`Session.build_eq_error`).

The filters that are left over are not asked. They connect a lone triple pattern that shares no variable with what is
known if one of them compares a variable of the two sides; the element is refused nevertheless, where the same filter
connects two triple patterns (`Session.laggards_detached`):

| element | what is known | filter | connected | refused |
| --- | --- | --- | --- | --- |
| `?c likes ?d`, `?c age ?e` | `?a` | `?c < ?a` | yes | no |
| `?c likes ?d` | `?a` | `?c < ?a` | yes | yes |
| `?c likes ?d` | `?a` | `?c < ?d` | no | yes |
| `?c likes ?a` | `?a` | | yes | no |

A condition outside the fragment may read tables from before alone, a filter of which every variable had a column. Then
one of these variables occurs in the element, and the element is connected by its equality. This is kept while a
fragment grows (`Reaches.join`).
-/

import TripleSql.Proofs.Compilations
import TripleSql.Proofs.FilterSteps

namespace TripleSql

/-- The condition reads a table on either side. -/
def Sql.Condition.Connects (e : Condition) (own before : List String) : Prop :=
  (∃ a ∈ e.aliases, a ∈ own) ∧ ∃ a ∈ e.aliases, a ∈ before

/-- The filter has a variable on either side. -/
def Pattern.Filter.Connects (q : Filter) (own before : List String) : Prop :=
  (∃ v ∈ q.vars, v ∈ own) ∧ ∃ v ∈ q.vars, v ∈ before

namespace Compile

open Pattern Sql

/-- **An element after the first required one arrives:** the elements before it are joined, it is compiled to the
fragment `f`, and joining this gives `r`. The variables of the required elements before it are known. -/
inductive Arrives (cat : Catalog) (q : Query) :
    Assembly → Bindings → GraphPattern → Fragment → Except Error Assembly → Prop
  | required {before after : List Element} {gp : GraphPattern} {a : Assembly} {f : Fragment} {s s' : Scope}
    (hq : q.required = before ++ .pattern gp :: after) (hbefore : requireEach cat none before {} = .ok (some a) s)
    (hf : fragment cat gp s = .ok f s') : Arrives cat q a s.bindings gp f (a.require f s'.bindings)
  | optional {before after : List Element} {gp : GraphPattern} {core a : Assembly} {all : Bindings} {f : Fragment}
    {s₀ s s' : Scope} (hq : q.optional = before ++ .pattern gp :: after)
    (hcore : requireEach cat none q.required {} = .ok (some core) s₀)
    (hbefore : allowEach cat core s₀.bindings before s₀ = .ok (a, all) s) (hf : fragment cat gp s = .ok f s') :
    Arrives cat q a s₀.bindings gp f (a.allow f (s'.constants.takeAll f.tree.aliases).1 s.bindings)

/-- The condition is the equality of a column of the fragment and the one that its variable had before, or one that
stands outside the fragment. -/
inductive Joins (known : Bindings) (f : Fragment) : Condition → Prop
  | equality {v : String} {c d : Column} (hc : (v, c) ∈ f.columns) (hd : known.column? v = some d) :
    Joins known f (Condition.columnsEqual d c)
  | outer {e : Condition} (he : e ∈ f.outer) : Joins known f e

/-- The fragment has no variable that is known. -/
def Fragment.IsApart (f : Fragment) (known : Bindings) : Prop :=
  ∀ v c, (v, c) ∈ f.columns → known.column? v = none

section Growing

/-- The condition reads a table from before and one of the fragment, or else the fragment has a variable from before. -/
def Reaches (base : Scope) (f : Fragment) (e : Condition) : Prop :=
  (∃ a ∈ e.aliases, a ∈ base.aliases.taken) ∧
    ((∃ a ∈ e.aliases, a ∈ f.tree.aliases) ∨ ∃ v c, (v, c) ∈ f.columns ∧ (base.bindings.column? v).isSome = true)

variable {cat : Catalog} {gp : GraphPattern} {base s s' : Scope} {x : Piece} {g g' : Growth} {f : Fragment} {t : Triple}
  {ts : List Triple} {p : Placement} {e : Condition}

/-- The tree that has grown has the aliases of the placements. -/
theorem Grown.tree_aliases (h : Grown cat base x g s) : g.fragment.tree.aliases = x.aliases :=
  Piece.aliases_of_tables h.tables

/-- What is to be said when a placement joins reads a table of the fragment, or else the fragment has a variable from
before. -/
theorem Holding.own_or_shared (hh : Holding base x g s) (hg : Grown cat base x g s) (hbase : base.Fresh)
    (hp : place cat t s = .ok p s') (he : e ∈ g.candidates p s') :
    (∃ a ∈ e.aliases, a ∈ (g.join p s').1.fragment.tree.aliases) ∨
      ∃ v c, (v, c) ∈ (g.join p s').1.fragment.columns ∧ (base.bindings.column? v).isSome = true := by
  have hgrown := hg.step hp
  obtain ⟨-, hof, -⟩ := place_eq_ok hp
  have own : ∀ {c : Column}, c.tableAlias ∈ e.aliases → c.tableAlias ∈ (x.push p).aliases →
      ∃ a ∈ e.aliases, a ∈ (g.join p s').1.fragment.tree.aliases := fun hc hx =>
    ⟨_, hc, hgrown.tree_aliases.symm ▸ hx⟩
  rcases List.mem_append.1 he with he | he
  · rcases List.mem_append.1 he with he | he
    · obtain ⟨slot, hslot, he⟩ := List.mem_flatMap.1 he
      have hslot : slot.2.tableAlias ∈ (x.push p).aliases := by
        rw [hof.tableAlias_eq hslot, Piece.aliases_push]
        exact List.mem_append_right _ (List.mem_singleton_self _)
      rcases Fragment.mem_slotConditions he with ⟨a, -, rfl⟩ | ⟨v, d, -, -, rfl⟩ <;>
        exact .inl (own (Condition.mem_aliases.2 (.inl rfl)) hslot)
    · obtain ⟨q, -, ⟨v, hv, hvq⟩, hqe⟩ := Pending.mem_take he
      obtain ⟨⟨v, c⟩, hvc, rfl⟩ := List.mem_map.1 hv
      obtain ⟨d, hd, hde⟩ := exists_column_of_mem_vars hqe hvq
      by_cases hbound : (base.bindings.column? v).isSome = true
      · exact .inr ⟨v, c, hvc, hbound⟩
      · have hs : s'.bindings = base.bindings.bindAll (x.push p).columns := by
          rw [← hgrown.base_eq]
          exact hgrown.bindings
        rw [hs, Bindings.column?_bindAll, Option.not_isSome_iff_eq_none.1 hbound, Option.none_or] at hd
        exact .inl (own hde (Piece.tableAlias_mem hgrown.placed (mem_of_lookup hd)))
  · obtain ⟨c, b, ⟨q, hq, hqc⟩, rfl⟩ := hh.constant_of_mem_takeAll hg hbase hp he
    refine .inl (own (Condition.mem_aliases.2 (.inl rfl)) (List.mem_map.2 ⟨q, hq, ?_⟩))
    exact ((hgrown.placed q hq).tableAlias_eq hqc).symm

/-- **What goes outside reaches out,** and goes on to do so when one more placement joins. -/
theorem Reaches.join (hg : Grown cat base x g s) (hh : Holding base x g s) (hbase : base.Fresh)
    (hp : place cat t s = .ok p s') (h : ∀ e ∈ g.fragment.outer, Reaches base g.fragment e) :
    ∀ e ∈ (g.join p s').1.fragment.outer, Reaches base (g.join p s').1.fragment e := by
  intro e he
  have hgrown := hg.step hp
  rcases Condition.mem_pushAll he with he | he
  · obtain ⟨hbefore, hown⟩ := h e he
    refine ⟨hbefore, hown.imp (fun ⟨a, ha, hat⟩ => ⟨a, ha, ?_⟩) fun ⟨v, c, hc, hv⟩ => ⟨v, c, ?_, hv⟩⟩
    · rw [hgrown.tree_aliases, Piece.aliases_push, ← hg.tree_aliases]
      exact List.mem_append_left _ hat
    · exact mem_addColumns.2 (.inl hc)
  · obtain ⟨he, hscope⟩ := List.mem_filter.1 he
    have hcandidate := Condition.mem_distinct he
    refine ⟨?_, hh.own_or_shared hg hbase hp hcandidate⟩
    by_contra hnone
    -- It reads nothing from before, so all that it reads is joined, and it would stand at the join.
    have hscoped : e.isScopedTo (g.fragment.tree.aliases ++ [p.table.aliasName]) = true := by
      refine Condition.isScopedTo_iff.2 fun a ha => ?_
      have hknown : ∀ {v c}, (x.push p).base.column? v = some c → c.tableAlias ∈ base.aliases.taken := fun hv => by
        rw [hgrown.base_eq] at hv
        exact hbase.bindings hv
      have := (hh.grounds_candidates hg hbase hp hcandidate).aliases_subset hgrown.placed hknown a ha
      rw [hg.tree_aliases]
      rw [Piece.aliases_push] at this
      exact (List.mem_append.1 this).resolve_left fun hb => hnone ⟨a, ha, hb⟩
    rw [hscoped] at hscope
    cases hscope

/-- What stands outside goes on to reach the fragment while triple patterns join it. -/
theorem Reaches.joinEach (hg : Grown cat base x g s) (hh : Holding base x g s) (hbase : base.Fresh)
    (h : ∀ e ∈ g.fragment.outer, Reaches base g.fragment e) (hjoin : Growth.joinEach cat g ts s = .ok g' s') :
    ∀ e ∈ g'.fragment.outer, Reaches base g'.fragment e := by
  induction ts generalizing x g s with
  | nil =>
    obtain ⟨rfl, rfl⟩ := Step.pure_eq_ok.1 hjoin
    exact h
  | cons t ts ih =>
    simp only [Growth.joinEach, Step.bind_eq_ok, Step.modifyGet_eq_ok] at hjoin
    obtain ⟨p, s₁, hp, g₁, s₂, hj, hjoin⟩ := hjoin
    obtain ⟨rfl, rfl⟩ := Prod.ext_iff.1 hj
    exact ih (hg.step hp) (hh.step hg hbase hp) (Reaches.join hg hh hbase hp h) hjoin

/-- **What stands outside a fragment reaches out.** -/
theorem Reaches.of_mem_outer (hbase : base.Fresh) (h : fragment cat gp base = .ok f s) :
    ∀ e ∈ f.outer, Reaches base f e := by
  obtain ⟨t, ts, ⟨filters⟩, first, s₁, g, -, -, hfirst, hg, -, hfinish⟩ := fragment_eq_ok_iff.1 h
  obtain ⟨hgrown, hholding⟩ := grown_single hbase hfirst
  obtain ⟨ps, -, -, hext⟩ := Extends.joinEach hg
  obtain ⟨htree, hcolumns, houter, -⟩ := Growth.finish_eq_ok hfinish hext.leftover
  intro e he
  rw [houter] at he
  have := Reaches.joinEach hgrown hholding hbase nofun hg e he
  rwa [Reaches, htree, hcolumns]

end Growing

/-- A fragment is refused as detached if it has no variable from before and nothing stands outside it. -/
theorem Assembly.attach_eq_error_iff {kind : JoinKind} {more : List Condition} {f : Fragment} {b : Bindings}
    {a : Assembly} : (∃ names, a.attach kind more f b = .error (.detached f.tree names)) ↔
      a.links f b = [] ∧ f.outer = [] := by
  have hnil : a.connections f b = [] ↔ a.links f b = [] ∧ f.outer = [] := by
    rw [connections, ← List.append_eq_nil_iff]
    refine ⟨fun h => List.eq_nil_iff_forall_not_mem.2 fun e he => ?_, fun h => by rw [h]; rfl⟩
    obtain ⟨d, hd, -⟩ := Condition.has_distinct he
    exact List.not_mem_nil (h ▸ hd)
  rw [← hnil]
  change (∃ names, (if a.connections f b = [] then _ else _) = _) ↔ _
  split
  · next h => exact iff_of_true ⟨_, rfl⟩ h
  · next h => exact iff_of_false nofun h

/-- **What is so where an element arrives:** it is compiled in a scope in which the tables before it are taken, and
refused exactly if it is apart from what is known there and nothing stands outside it. -/
structure Arrival (cat : Catalog) (a : Assembly) (gp : GraphPattern) (f : Fragment) (r : Except Error Assembly)
    (base s : Scope) (x : Piece) : Prop where
  fragment_eq : fragment cat gp base = .ok f s
  compiled : Compiled cat gp base x f s
  fresh : base.Fresh
  aliases : a.tree.aliases = base.aliases.taken
  detached_iff : (∃ names, r = .error (.detached f.tree names)) ↔
    f.IsApart base.bindings ∧ f.outer = []

/-- A condition reads an alias of some exactly if its filter has a variable of some, where the columns of these are under
those. -/
theorem exists_alias_iff {column? : String → Option Column} {q : Filter} {e : Condition} {as vs : List String}
    (h : conditionOf? column? q = some e) (has : ∀ v c, column? v = some c → (c.tableAlias ∈ as ↔ v ∈ vs)) :
    (∃ a ∈ e.aliases, a ∈ as) ↔ ∃ v ∈ q.vars, v ∈ vs := by
  constructor
  · rintro ⟨a, hae, ha⟩
    obtain ⟨v, hv, c, hc, rfl⟩ := exists_var_of_mem_aliases h hae
    exact ⟨v, hv, (has v c hc).1 ha⟩
  · rintro ⟨v, hv, hvs⟩
    obtain ⟨c, hc, hce⟩ := exists_column_of_mem_vars h hv
    exact ⟨c.tableAlias, hce, (has v c hc).2 hvs⟩

section Arriving

variable {cat : Catalog} {q : Query} {a : Assembly} {known : Bindings} {gp : GraphPattern} {f : Fragment}
  {r : Except Error Assembly} {base s : Scope} {x : Piece} {v : String} {c d : Column} {e : Condition}

/-- A fragment has no links exactly if it is apart from what was known before it. -/
theorem Assembly.links_eq_nil_iff {b : Bindings} (ha : a.Knows base) (hbase : base.Fresh)
    (h : Compiled cat gp base x f s) (hb : b = base.bindings ∨ b = s.bindings) :
    a.links f b = [] ↔ f.IsApart base.bindings := by
  constructor
  · intro hnil v c hc
    cases hd : base.bindings.column? v with
    | none => rfl
    | some d =>
      have := mem_links_of_base ha hbase h hb ((h.mem_columns _).1 hc) (h.base_eq.symm ▸ hd)
      rw [hnil] at this
      cases this
  · intro hapart
    refine List.eq_nil_iff_forall_not_mem.2 fun e he => ?_
    obtain ⟨v, c, d, hc, hd, -⟩ := base_of_mem_links ha h hb he
    rw [h.base_eq, hapart v c ((h.mem_columns _).2 hc)] at hd
    cases hd

/-- What arrives is compiled, and what it is joined to has the columns that are known. -/
theorem Arrives.exists_arrival (h : Arrives cat q a known gp f r) :
    ∃ base s x, base.bindings = known ∧ Arrival cat a gp f r base s x := by
  cases h with
  | required hq hbefore hf =>
    obtain ⟨req, hreq⟩ := requireEach_eq_ok hbefore
    obtain ⟨x, hx⟩ := fragment_eq_ok hreq.fresh hf
    refine ⟨_, _, x, rfl, hf, hx, hreq.fresh, hreq.aliases.trans hreq.taken.symm, ?_⟩
    rw [← Assembly.links_eq_nil_iff hreq.knows hreq.fresh hx (.inr rfl)]
    exact Assembly.attach_eq_error_iff
  | optional hq hcore hbefore hf =>
    obtain ⟨req, hreq⟩ := requireEach_eq_ok hcore
    obtain ⟨opt, hopt⟩ := allowEach_eq_ok hreq.members (Extended.of_standing hreq) hbefore
    obtain ⟨x, hx⟩ := fragment_eq_ok hopt.fresh hf
    have hknown := hopt.bindings.trans hreq.bindings.symm
    refine ⟨_, _, x, hknown, hf, hx, hopt.fresh, hopt.aliases.trans hopt.taken.symm, ?_⟩
    rw [← Assembly.links_eq_nil_iff (hopt.knows hreq.members) hopt.fresh hx (.inl rfl)]
    exact Assembly.attach_eq_error_iff

/-- A graph pattern that compiles is not empty. -/
theorem ne_nil_of_fragment_eq_ok (h : fragment cat gp base = .ok f s) : gp.triples ≠ [] := by
  obtain ⟨t, ts, -, -, -, -, hgp, -⟩ := fragment_eq_ok_iff.1 h
  exact hgp ▸ List.cons_ne_nil t ts

namespace Arrival

/-- The variables of the fragment are those of the graph pattern. -/
theorem mem_vars (h : Arrival cat a gp f r base s x) :
    (∃ c, (v, c) ∈ f.columns) ↔ v ∈ gp.triples.flatMap Triple.vars := by
  rw [(h.compiled.perm.symm.flatMap_right Triple.vars).mem_iff, ← h.compiled.triples, List.mem_flatMap]
  simp only [h.compiled.mem_columns, Piece.mem_columns, List.mem_map, exists_exists_and_eq_and, Placement.mem_vars]
  exact ⟨fun ⟨c, p, hp, hc⟩ => ⟨p, hp, c, hc⟩, fun ⟨p, hp, c, hc⟩ => ⟨c, p, hp, hc⟩⟩

/-- The columns of the fragment are under its aliases, which are not those of the tables before it. -/
theorem own (h : Arrival cat a gp f r base s x) (hc : (v, c) ∈ f.columns) :
    c.tableAlias ∈ f.tree.aliases ∧ c.tableAlias ∉ a.tree.aliases := by
  have hx := Piece.tableAlias_mem h.compiled.placed ((h.compiled.mem_columns _).1 hc)
  rw [h.compiled.tree_aliases, h.aliases]
  exact ⟨hx, h.compiled.not_mem_taken hx⟩

/-- The columns that are known are under the aliases of the tables before the fragment, which are not its own. -/
theorem before (h : Arrival cat a gp f r base s x) (hd : base.bindings.column? v = some d) :
    d.tableAlias ∈ a.tree.aliases ∧ d.tableAlias ∉ f.tree.aliases := by
  have hd := h.fresh.bindings hd
  rw [h.compiled.tree_aliases, h.aliases]
  exact ⟨hd, fun hx => h.compiled.not_mem_taken hx hd⟩

/-- The fragment is apart if no variable of the graph pattern is known. -/
theorem isApart_iff (h : Arrival cat a gp f r base s x) :
    f.IsApart base.bindings ↔ ¬ ∃ v ∈ gp.triples.flatMap Triple.vars, v ∈ base.bindings.vars := by
  simp only [Fragment.IsApart, ← h.mem_vars, Bindings.mem_vars, ← Option.not_isSome_iff_eq_none]
  exact ⟨fun hapart ⟨v, ⟨c, hc⟩, hv⟩ => hapart v c hc hv, fun hnot v c hc hv => hnot ⟨v, ⟨c, hc⟩, hv⟩⟩

/-- A variable that is shared connects. -/
theorem exists_joins_of_not_isApart (h : Arrival cat a gp f r base s x) (hshared : ¬ f.IsApart base.bindings) :
    ∃ e, Joins base.bindings f e ∧ e.Connects f.tree.aliases a.tree.aliases := by
  obtain ⟨v, hv, hknown⟩ := not_not.1 (mt h.isApart_iff.2 hshared)
  obtain ⟨c, hc⟩ := h.mem_vars.2 hv
  obtain ⟨d, hd⟩ := Option.isSome_iff_exists.1 (Bindings.mem_vars.1 hknown)
  exact ⟨_, .equality hc hd, ⟨_, Condition.mem_aliases.2 (.inr rfl), (h.own hc).1⟩,
    ⟨_, Condition.mem_aliases.2 (.inl rfl), (h.before hd).1⟩⟩

/-- **The element is refused exactly if no equality and nothing from outside the fragment connects it.** -/
theorem detached_iff_not_joins (h : Arrival cat a gp f r base s x) :
    (∃ names, r = .error (.detached f.tree names)) ↔
      ¬ ∃ e, Joins base.bindings f e ∧ e.Connects f.tree.aliases a.tree.aliases := by
  rw [h.detached_iff]
  constructor
  · rintro ⟨hapart, hnil⟩ ⟨e, hjoins, -⟩
    cases hjoins with
    | equality hc hd =>
      rw [hapart _ _ hc] at hd
      cases hd
    | outer he =>
      rw [hnil] at he
      cases he
  · intro hnot
    have hapart : f.IsApart base.bindings := by_contra fun hshared => hnot (h.exists_joins_of_not_isApart hshared)
    refine ⟨hapart, List.eq_nil_iff_forall_not_mem.2 fun e he => hnot ⟨e, .outer he, ?_⟩⟩
    obtain ⟨hbefore, hown | ⟨v, c, hc, hv⟩⟩ := Reaches.of_mem_outer h.fresh h.fragment_eq e he
    · exact ⟨hown, h.aliases.symm ▸ hbefore⟩
    · rw [hapart v c hc] at hv
      cases hv

/-- A lone triple pattern that shares no variable is refused. -/
theorem detached_of_lone (h : Arrival cat a gp f r base s x) (hone : gp.triples.length = 1)
    (hapart : f.IsApart base.bindings) : ∃ names, r = .error (.detached f.tree names) := by
  obtain ⟨-, -, houter, -⟩ := leftover_of_lone h.fragment_eq hone
  exact h.detached_iff.2 ⟨hapart, houter⟩

/-- The column that a filter left over reads for a variable is under an alias of the fragment if the variable occurs
there. -/
theorem tableAlias_mem_own_iff (h : Arrival cat a gp f r base s x)
    (hc : (f.column? v <|> base.bindings.column? v) = some c) :
    c.tableAlias ∈ f.tree.aliases ↔ v ∈ gp.triples.flatMap Triple.vars := by
  rw [← h.mem_vars]
  rcases (Option.orElse_eq_some ..).1 hc with hc | ⟨hnone, hc⟩
  · exact iff_of_true (h.own (mem_of_lookup hc)).1 ⟨c, mem_of_lookup hc⟩
  · exact iff_of_false (h.before hc).2 fun ⟨d, hd⟩ => not_mem_of_lookup hnone d hd

/-- It is under an alias from before if the variable is known and does not occur in the fragment. -/
theorem tableAlias_mem_before_iff (h : Arrival cat a gp f r base s x)
    (hapart : f.IsApart base.bindings) (hc : (f.column? v <|> base.bindings.column? v) = some c) :
    c.tableAlias ∈ a.tree.aliases ↔ v ∈ base.bindings.vars := by
  rw [Bindings.mem_vars]
  rcases (Option.orElse_eq_some ..).1 hc with hc | ⟨-, hc⟩
  · have hc := mem_of_lookup hc
    exact iff_of_false (h.own hc).2 (by simp [hapart v c hc])
  · exact iff_of_true (h.before hc).1 (by simp [hc])

/-- **A filter that is left over connects** if it has a variable on either side, where the sides share none. -/
theorem exists_leftover_connects_iff (h : Arrival cat a gp f r base s x) (hone : gp.triples.length = 1)
    (hapart : f.IsApart base.bindings) :
    (∃ e ∈ f.leftover, e.Connects f.tree.aliases a.tree.aliases) ↔
      ∃ q ∈ gp.filters, q.Connects (gp.triples.flatMap Triple.vars) base.bindings.vars := by
  obtain ⟨filters, hfilters, -, hleft, hleft'⟩ := leftover_of_lone h.fragment_eq hone
  have haccept := mapM_eq_ok_except.1 hfilters
  -- A filter and its condition connect alike.
  have alike : ∀ {q q' e}, Pending.accept q = .ok q' →
      conditionOf? (fun v => f.column? v <|> base.bindings.column? v) q' = some e →
      (e.Connects f.tree.aliases a.tree.aliases ↔
        q.Connects (gp.triples.flatMap Triple.vars) base.bindings.vars) := fun {q q' e} hq he => by
    rw [Filter.Connects, ← Pending.accept_vars hq]
    exact and_congr (exists_alias_iff he fun _ _ hc => h.tableAlias_mem_own_iff hc)
      (exists_alias_iff he fun _ _ hc => h.tableAlias_mem_before_iff hapart hc)
  constructor
  · rintro ⟨e, he, hconnects⟩
    obtain ⟨q', hq', hqe⟩ := hleft e he
    obtain ⟨q, hq, hqq⟩ := exists_left_of_forall₂ haccept hq'
    exact ⟨q, hq, (alike hqq hqe).1 hconnects⟩
  · rintro ⟨q, hq, hconnects⟩
    obtain ⟨q', hq', hqq⟩ := exists_right_of_forall₂ haccept hq
    obtain ⟨e, hqe, d, hd, hde⟩ := hleft' q' hq'
    obtain ⟨hown, hbefore⟩ := (alike hqq hqe).2 hconnects
    simp only [← Condition.mem_aliases_congr hde] at hown hbefore
    exact ⟨d, hd, hown, hbefore⟩

end Arrival

/-- **An element is refused exactly if no equality and nothing from outside its fragment connects it.** So it is refused
exactly if nothing at all connects it, filters that are left over included, unless it is a lone triple pattern without a
known variable and with a filter that has a variable on either side. -/
theorem Arrives.refused_iff (h : Arrives cat q a known gp f r) :
    ((∃ names, r = .error (.detached f.tree names)) ↔
      ¬ ∃ e, Joins known f e ∧ e.Connects f.tree.aliases a.tree.aliases) ∧
    (((∃ names, r = .error (.detached f.tree names)) ↔
        ¬ ∃ e, (Joins known f e ∨ e ∈ f.leftover) ∧ e.Connects f.tree.aliases a.tree.aliases) ↔
      2 ≤ gp.triples.length ∨ (∃ v ∈ gp.triples.flatMap Triple.vars, v ∈ known.vars) ∨
        ∀ q ∈ gp.filters, ¬ q.Connects (gp.triples.flatMap Triple.vars) known.vars) := by
  obtain ⟨base, s, x, rfl, ha⟩ := h.exists_arrival
  refine ⟨ha.detached_iff_not_joins, ?_⟩
  rw [ha.detached_iff_not_joins]
  simp only [or_and_right, exists_or, not_or]
  by_cases htwo : 2 ≤ gp.triples.length
  · -- Nothing is left over.
    rw [leftover_of_joined ha.fragment_eq htwo]
    exact iff_of_true (by simp) (.inl htwo)
  by_cases hapart : f.IsApart base.bindings
  · have hone : gp.triples.length = 1 := by
      have := List.length_pos_of_ne_nil (ne_nil_of_fragment_eq_ok ha.fragment_eq)
      omega
    have hrefused := ha.detached_iff_not_joins.1 (ha.detached_of_lone hone hapart)
    rw [ha.exists_leftover_connects_iff hone hapart, or_iff_right htwo, or_iff_right (ha.isApart_iff.1 hapart)]
    simp [hrefused]
  · -- The equality of a shared variable connects, whatever is left over.
    have hshared := not_not.1 (mt ha.isApart_iff.2 hapart)
    have hjoins := ha.exists_joins_of_not_isApart hapart
    exact iff_of_true (iff_of_false (not_not_intro hjoins) fun hn => hn.1 hjoins) (.inr (.inl hshared))

end Arriving

section Answer

variable {cat : Catalog} {a : Assembly} {gp : GraphPattern} {f : Fragment} {es : List Element} {all all' : Bindings}
  {before after : List Element} {s₀ s s' : Scope} {e : Error}

/-- A required element fails as its fragment does when it is joined. -/
theorem requireElement_eq_error (hf : fragment cat gp s = .ok f s') (h : a.require f s'.bindings = .error e) :
    requireElement cat (some a) (.pattern gp) s = .error e s' := by
  refine (Step.bind_of_eq_ok (Step.ofExcept_eq_ok.2 ⟨rfl, rfl⟩)).trans ((Step.bind_of_eq_ok hf).trans ?_)
  exact (Step.bind_of_eq_ok (Step.get_eq_ok.2 ⟨rfl, rfl⟩)).trans (Step.ofExcept_of_eq_error h)

/-- An optional element fails as its fragment does when it is joined. -/
theorem allowElement_eq_error (hf : fragment cat gp s = .ok f s')
    (h : a.allow f (s'.constants.takeAll f.tree.aliases).1 s.bindings = .error e) :
    allowElement cat a (.pattern gp) s = .error e
      { s' with bindings := s.bindings, constants := (s'.constants.takeAll f.tree.aliases).2 } := by
  refine (Step.bind_of_eq_ok (Step.ofExcept_eq_ok.2 ⟨rfl, rfl⟩)).trans ?_
  refine (Step.bind_of_eq_ok (Step.get_eq_ok.2 ⟨rfl, rfl⟩)).trans ((Step.bind_of_eq_ok hf).trans ?_)
  refine (Step.bind_of_eq_ok (Step.get_eq_ok.2 ⟨rfl, rfl⟩)).trans ?_
  exact (Step.bind_of_eq_ok (Step.modifyGet_eq_ok.2 rfl)).trans (Step.bind_of_eq_error (Step.ofExcept_of_eq_error h))

/-- Required elements fail with the first one that fails. -/
theorem requireEach_eq_error {a? : Option Assembly} (hes : es = before ++ .pattern gp :: after)
    (hbefore : requireEach cat a? before s₀ = .ok (some a) s)
    (hf : fragment cat gp s = .ok f s') (h : a.require f s'.bindings = .error e) :
    requireEach cat a? es s₀ = .error e s' := by
  rw [hes, requireEach_append]
  exact (Step.bind_of_eq_ok hbefore).trans (Step.bind_of_eq_error (requireElement_eq_error hf h))

/-- Optional elements fail with the first one that fails. -/
theorem allowEach_eq_error {core : Assembly} (hes : es = before ++ .pattern gp :: after)
    (hbefore : allowEach cat core all before s₀ = .ok (a, all') s)
    (hf : fragment cat gp s = .ok f s') (h : a.allow f (s'.constants.takeAll f.tree.aliases).1 s.bindings = .error e) :
    allowEach cat core all es s₀ = .error e
      { s' with bindings := s.bindings, constants := (s'.constants.takeAll f.tree.aliases).2 } := by
  rw [hes, allowEach_append]
  exact (Step.bind_of_eq_ok hbefore).trans (Step.bind_of_eq_error (allowElement_eq_error hf h))

/-- **An element that is refused refuses the query.** -/
theorem Session.build_eq_error {S : Session} {known : Bindings} (ht : S.targets ≠ [])
    (h : Arrives S.catalog S.query a known gp f (.error e)) : S.build.1 = .error e := by
  obtain ⟨s', h⟩ : ∃ s', statement S.catalog S.query S.targets S.ordering {} = .error e s' := by
    generalize hr : Except.error e = r at h
    cases h with
    | required hq hbefore hf =>
      exact ⟨_, Step.bind_of_eq_error (requireEach_eq_error hq hbefore hf hr.symm)⟩
    | optional hq hcore hbefore hf =>
      have hrun := allowEach_eq_error hq hbefore hf hr.symm
      exact ⟨_, (Step.bind_of_eq_ok hcore).trans
        ((Step.bind_of_eq_ok (Step.get_eq_ok.2 ⟨rfl, rfl⟩)).trans (Step.bind_of_eq_error hrun))⟩
  rw [Session.build, if_neg ht, h]

end Answer

instance decidableEqResult {ε σ α : Type} [DecidableEq ε] [DecidableEq σ] [DecidableEq α] :
    DecidableEq (EStateM.Result ε σ α)
  | .ok a s, .ok b t => decidable_of_iff (a = b ∧ s = t) (.of_eq (EStateM.Result.ok.injEq ..).symm)
  | .error e s, .error f t => decidable_of_iff (e = f ∧ s = t) (.of_eq (EStateM.Result.error.injEq ..).symm)
  | .ok .., .error .. => .isFalse nofun
  | .error .., .ok .. => .isFalse nofun

/-- Who likes something and comes before somebody in the order; `more` triple patterns are about them. -/
def laggard (more : List Triple) : GraphPattern where
  triples := ⟨.var "c", .const "<likes>", .var "d"⟩ :: more
  filters := [⟨.var "c", "<", .var "a"⟩]

/-- Who knows somebody, and those who come before them. -/
def Session.laggards (more : List Triple) : Session where
  catalog := friends.catalog
  query :=
    { required := [.pattern ⟨[⟨.var "a", .const "<knows>", .var "b"⟩], []⟩]
      optional := [.pattern (laggard more)] }
  targets := ["a"]

/-- What is joined when the optional element of `laggards` arrives. -/
def laggardsAssembly : Assembly where
  tree := .base (.table ⟨"knows", "knows"⟩)
  columns := [("a", ⟨"knows", "s"⟩), ("b", ⟨"knows", "o"⟩)]
  residual := []

/-- The fragment of the optional element of `laggards`, a lone triple pattern. -/
def laggardFragment : Fragment where
  tree := .base (.table ⟨"likes", "likes"⟩)
  columns := [("c", ⟨"likes", "s"⟩), ("d", ⟨"likes", "o"⟩)]
  leftover := [⟨.column ⟨"likes", "s"⟩, "<", .column ⟨"knows", "s"⟩⟩]

/-- The fragment of the optional element of `laggards` with a second triple pattern about who comes before somebody. -/
def laggardPair : Fragment where
  tree := .join (.base (.table ⟨"likes", "likes"⟩)) .inner (.table ⟨"age", "age"⟩)
    [Condition.columnsEqual ⟨"age", "s"⟩ ⟨"likes", "s"⟩]
  columns := [("c", ⟨"likes", "s"⟩), ("d", ⟨"likes", "o"⟩), ("c", ⟨"age", "s"⟩), ("e", ⟨"age", "o"⟩)]
  outer := [⟨.column ⟨"likes", "s"⟩, "<", .column ⟨"knows", "s"⟩⟩]

/-- The optional element of `laggards` arrives, whatever its triple patterns are, once it is compiled. -/
theorem arrives_of_fragment {more : List Triple} {f : Fragment} {s : Scope}
    (hf : fragment (Session.laggards []).catalog (laggard more)
      ⟨⟨[("<knows>", 1)], ["knows"]⟩, ⟨laggardsAssembly.columns⟩, {}⟩ = .ok f s) :
    Arrives (Session.laggards more).catalog (Session.laggards more).query laggardsAssembly ⟨laggardsAssembly.columns⟩
      (laggard more) f
      (laggardsAssembly.allow f (s.constants.takeAll f.tree.aliases).1 ⟨laggardsAssembly.columns⟩) := by
  have hcore : requireEach (Session.laggards []).catalog none (Session.laggards []).query.required {} =
      .ok (some laggardsAssembly) ⟨⟨[("<knows>", 1)], ["knows"]⟩, ⟨laggardsAssembly.columns⟩, {}⟩ := by
    decide +kernel
  have hoptional : (Session.laggards more).query.optional = [] ++ .pattern (laggard more) :: [] := rfl
  exact .optional hoptional hcore rfl hf

/-- With one triple pattern the element is refused. -/
theorem arrives_laggard : Arrives (Session.laggards []).catalog (Session.laggards []).query laggardsAssembly
    ⟨laggardsAssembly.columns⟩ (laggard []) laggardFragment
    (.error (.detached laggardFragment.tree (Bindings.names ⟨laggardsAssembly.columns⟩))) :=
  arrives_of_fragment (s := ⟨⟨[("<likes>", 1), ("<knows>", 1)], ["knows", "likes"]⟩,
    ⟨laggardsAssembly.columns ++ laggardFragment.columns⟩, {}⟩) (by decide +kernel)

/-- With two triple patterns it is not. -/
theorem exists_arrives_laggardPair : ∃ a, Arrives (Session.laggards [⟨.var "c", .const "<age>", .var "e"⟩]).catalog
    (Session.laggards [⟨.var "c", .const "<age>", .var "e"⟩]).query laggardsAssembly ⟨laggardsAssembly.columns⟩
    (laggard [⟨.var "c", .const "<age>", .var "e"⟩]) laggardPair (.ok a) :=
  ⟨_, arrives_of_fragment (s := ⟨⟨[("<age>", 1), ("<likes>", 1), ("<knows>", 1)], ["knows", "likes", "age"]⟩,
    ⟨laggardsAssembly.columns ++ laggardFragment.columns ++ [("e", ⟨"age", "o"⟩)]⟩, {}⟩) (by decide +kernel)⟩

/-- No equality connects the optional element of `laggards`, and nothing outside its fragment does; the filter that is
left over connects it, so it is an exception. With a second triple pattern the filter is asked. -/
theorem laggards_refused_iff :
    (¬ ∃ e, Joins ⟨laggardsAssembly.columns⟩ laggardFragment e ∧
      e.Connects laggardFragment.tree.aliases laggardsAssembly.tree.aliases) ∧
    (∃ e, (Joins ⟨laggardsAssembly.columns⟩ laggardFragment e ∨ e ∈ laggardFragment.leftover) ∧
      e.Connects laggardFragment.tree.aliases laggardsAssembly.tree.aliases) ∧
    ∃ e, Joins ⟨laggardsAssembly.columns⟩ laggardPair e ∧
      e.Connects laggardPair.tree.aliases laggardsAssembly.tree.aliases := by
  obtain ⟨hasked, hall⟩ := Arrives.refused_iff arrives_laggard
  obtain ⟨_, hpair⟩ := exists_arrives_laggardPair
  have hexception : ¬ (2 ≤ (laggard []).triples.length ∨
      (∃ v ∈ (laggard []).triples.flatMap Triple.vars, v ∈ Bindings.vars ⟨laggardsAssembly.columns⟩) ∨
      ∀ q ∈ (laggard []).filters,
        ¬ q.Connects ((laggard []).triples.flatMap Triple.vars) (Bindings.vars ⟨laggardsAssembly.columns⟩)) := by
    have hshared : ¬ ∃ v ∈ (laggard []).triples.flatMap Triple.vars, v ∈ Bindings.vars ⟨laggardsAssembly.columns⟩ := by
      decide
    rintro (htwo | hone | hnone)
    · exact absurd htwo (by decide)
    · exact hshared hone
    · exact hnone _ (List.mem_singleton_self _) ⟨⟨"c", by decide⟩, ⟨"a", by decide⟩⟩
  refine ⟨hasked.1 ⟨_, rfl⟩, ?_, ?_⟩
  · by_contra hnothing
    exact hexception (hall.1 (iff_of_true ⟨_, rfl⟩ hnothing))
  · by_contra hnothing
    obtain ⟨_, hrefused⟩ := (Arrives.refused_iff hpair).1.2 hnothing
    cases hrefused

/-- **A filter connects, and its element is refused nevertheless,** unless the element has a second triple pattern. -/
theorem Session.laggards_detached : (laggards []).catalog.check = .ok () ∧
    Arrives (laggards []).catalog (laggards []).query laggardsAssembly ⟨laggardsAssembly.columns⟩ (laggard [])
      laggardFragment (.error (.detached laggardFragment.tree (Bindings.names ⟨laggardsAssembly.columns⟩))) ∧
    (∃ e ∈ laggardFragment.leftover, e.Connects laggardFragment.tree.aliases laggardsAssembly.tree.aliases) ∧
    (laggards []).build.1 = .error (.detached laggardFragment.tree (Bindings.names ⟨laggardsAssembly.columns⟩)) ∧
    (laggards [⟨.var "c", .const "<age>", .var "e"⟩]).build.1 = .ok
      { select := [⟨"knows", "s"⟩]
        tables := .join laggardsAssembly.tree .leftOuter
          (.nested (.join laggardFragment.tree .inner (.table ⟨"age", "age"⟩)
            [Condition.columnsEqual ⟨"age", "s"⟩ ⟨"likes", "s"⟩])) laggardFragment.leftover
        conditions := []
        ordering := none } :=
  ⟨by decide +kernel, arrives_laggard, ⟨_, List.mem_singleton_self _, ⟨"likes", by decide⟩, ⟨"knows", by decide⟩⟩,
    build_eq_error (by decide) arrives_laggard, by decide +kernel⟩

end Compile
end TripleSql
