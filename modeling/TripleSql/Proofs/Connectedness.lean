/-
# Which statements are connected

Two tables of a statement are adjacent if one condition reads a column of each, be it at a join at any depth or in
`WHERE` (`Statement.graph`). Whether the graph of these is connected is told by the query alone
(`Session.build_connected_iff`).

A variable of required elements is one and the same wherever it stands, any other one is its optional element's own
(`Query.meaning`). Two variables meet where one triple pattern or one filter has both. The graph is connected exactly if
such meetings lead from the first triple pattern of every element to the very first one (`Query.IsTied`). The other
triple patterns need not be asked for: each is joined on a variable that was bound before it.

A first triple pattern is not joined on anything, and its element is, if one table of it is. So a query may compile that
is not tied, and then every row of some tables is combined with every row of others (`Session.strangers_not_connected`).

Aliases and variables are exchanged in the proof. An alias carries the variables of its triple pattern (`Carries`).
Aliases that carry one variable are linked by equalities, and variables that one alias carries meet; adjacent aliases
carry variables that meet, and variables that meet are carried by linked aliases.
-/

import Mathlib.Combinatorics.SimpleGraph.Connectivity.Connected
import TripleSql.Proofs.Leaves
import TripleSql.Proofs.RepeatedVariables

namespace TripleSql

open Relation

section Exchange

variable {α β : Type} {r : α → α → Prop} {s : β → β → Prop} (carries : α → β → Prop) {a a' : α} {b b' : β}

/-- Where steps on one side are carried by connected things of another side, chains of them are. -/
theorem exists_of_eqvGen (hcarries : ∀ ⦃a a' b⦄, carries a b → carries a' b → EqvGen r a a')
    (hstep : ∀ ⦃b b'⦄, s b b' → ∃ a a', carries a b ∧ carries a' b' ∧ EqvGen r a a') (h : EqvGen s b b') :
    b = b' ∨ ∃ a a', carries a b ∧ carries a' b' ∧ EqvGen r a a' := by
  induction h with
  | rel b b' h => exact .inr (hstep h)
  | refl b => exact .inl rfl
  | symm b b' _ ih =>
    rcases ih with rfl | ⟨a, a', ha, ha', hr⟩
    · exact .inl rfl
    · exact .inr ⟨a', a, ha', ha, .symm _ _ hr⟩
  | trans b b' b'' _ _ ih₁ ih₂ =>
    rcases ih₁ with rfl | ⟨a, a', ha, ha', hr⟩
    · exact ih₂
    · rcases ih₂ with rfl | ⟨c, c', hc, hc', hr'⟩
      · exact .inr ⟨a, a', ha, ha', hr⟩
      · exact .inr ⟨a, c', ha, hc', .trans _ _ _ hr (.trans _ _ _ (hcarries ha' hc) hr')⟩

/-- Two relations whose points are carried along connect the same points, if each step of the one is a way in the
other. -/
theorem eqvGen_of_eqvGen (hcarries : ∀ ⦃a a' b⦄, carries a b → carries a' b → EqvGen r a a')
    (hstep : ∀ ⦃b b'⦄, s b b' → ∃ a a', carries a b ∧ carries a' b' ∧ EqvGen r a a') (h : EqvGen s b b')
    (ha : carries a b) (ha' : carries a' b') : EqvGen r a a' := by
  rcases exists_of_eqvGen carries hcarries hstep h with rfl | ⟨c, c', hc, hc', hr⟩
  · exact hcarries ha ha'
  · exact .trans _ _ _ (hcarries ha hc) (.trans _ _ _ hr (hcarries hc' ha'))

end Exchange

namespace Pattern.Query

/-- **The variable that is meant** by a name in the `i`-th element: that of the required elements, if they have one of
the name, or else the element's own. -/
def meaning (q : Query) (i : Nat) (v : String) : Option Nat × String :=
  if v ∈ q.required.flatMap Element.vars then (none, v) else (some i, v)

/-- Two variables meet in a triple pattern or in a filter. -/
inductive Meets (q : Query) : Option Nat × String → Option Nat × String → Prop
  | triple {i : Nat} {e : Element} {t : Triple} {v w : String} (he : (q.required ++ q.optional)[i]? = some e)
    (ht : t ∈ e.triples) (hv : v ∈ t.vars) (hw : w ∈ t.vars) : Meets q (q.meaning i v) (q.meaning i w)
  | filter {i : Nat} {e : Element} {f : Filter} {v w : String} (he : (q.required ++ q.optional)[i]? = some e)
    (hf : f ∈ e.filters) (hv : v ∈ f.vars) (hw : w ∈ f.vars) : Meets q (q.meaning i v) (q.meaning i w)

/-- The first triple pattern of the `i`-th element. -/
def first? (q : Query) (i : Nat) : Option Triple := (q.required ++ q.optional)[i]?.bind fun e => e.triples.head?

/-- **The elements are tied to the first one:** meetings lead from the first triple pattern of each to the very first
one. -/
def IsTied (q : Query) : Prop :=
  ∀ i t t₀, q.first? i = some t → q.first? 0 = some t₀ →
    i = 0 ∨ ∃ v ∈ t.vars, ∃ w ∈ t₀.vars, EqvGen q.Meets (q.meaning i v) (q.meaning 0 w)

variable {q : Query} {i j : Nat} {v w : String}

/-- A variable of the required elements means the same in all elements. -/
theorem meaning_of_mem (h : v ∈ q.required.flatMap Element.vars) : q.meaning i v = (none, v) := if_pos h

/-- Two names mean one variable only if they are the same, and then in one element or in the required ones. -/
theorem meaning_eq_meaning_iff :
    q.meaning i v = q.meaning j w ↔ v = w ∧ (v ∈ q.required.flatMap Element.vars ∨ i = j) := by
  by_cases hv : v ∈ q.required.flatMap Element.vars <;> by_cases hw : w ∈ q.required.flatMap Element.vars
  · rw [meaning_of_mem hv, meaning_of_mem hw]
    simp [hv]
  · rw [meaning_of_mem hv, meaning, if_neg hw]
    exact iff_of_false nofun fun h => hw (h.1 ▸ hv)
  · rw [meaning_of_mem hw, meaning, if_neg hv]
    exact iff_of_false nofun fun h => hv (h.1 ▸ hw)
  · rw [meaning, meaning, if_neg hv, if_neg hw]
    simp [hv, and_comm]

end Pattern.Query

namespace Sql.Statement

/-- Two aliases are adjacent if a condition reads columns of both tables. -/
def Adjacent (st : Statement) (a b : String) : Prop :=
  a ≠ b ∧ ∃ e ∈ st.tables.conditions ++ st.conditions, a ∈ e.aliases ∧ b ∈ e.aliases

/-- **The graph of a statement:** the aliases of its tables, those adjacent that a condition reads together. -/
def graph (st : Statement) : SimpleGraph {a // a ∈ st.tables.aliases} where
  Adj a b := st.Adjacent a b
  symm := ⟨fun _ _ ⟨hne, e, he, ha, hb⟩ => ⟨hne.symm, e, he, hb, ha⟩⟩
  loopless := ⟨fun _ h => h.1 rfl⟩

/-- Where only aliases of the statement are read, walks in its graph are chains of adjacent aliases. -/
theorem reachable_iff {st : Statement}
    (hread : ∀ e ∈ st.tables.conditions ++ st.conditions, ∀ a ∈ e.aliases, a ∈ st.tables.aliases)
    {a b : {a // a ∈ st.tables.aliases}} : st.graph.Reachable a b ↔ EqvGen st.Adjacent a b := by
  constructor
  · rintro ⟨walk⟩
    induction walk with
    | nil => exact .refl _
    | cons hadj _ ih => exact .trans _ _ _ (.rel _ _ hadj) ih
  · have lift : ∀ {a b : String}, EqvGen st.Adjacent a b → (a ∈ st.tables.aliases ↔ b ∈ st.tables.aliases) ∧
        ∀ ha hb, st.graph.Reachable ⟨a, ha⟩ ⟨b, hb⟩ := by
      intro a b h
      induction h with
      | rel a b h =>
        have ⟨_, e, he, ha, hb⟩ := h
        exact ⟨iff_of_true (hread e he a ha) (hread e he b hb), fun ha hb =>
          (show st.graph.Adj ⟨a, ha⟩ ⟨b, hb⟩ from h).reachable⟩
      | refl a => exact ⟨.rfl, fun _ _ => .rfl⟩
      | symm a b _ ih => exact ⟨ih.1.symm, fun hb ha => (ih.2 ha hb).symm⟩
      | trans a b c _ _ ih₁ ih₂ =>
        exact ⟨ih₁.1.trans ih₂.1, fun ha hc => (ih₁.2 ha (ih₁.1.1 ha)).trans (ih₂.2 (ih₁.1.1 ha) hc)⟩
    exact fun h => (lift h).2 a.2 b.2

/-- What a condition reads is linked. -/
theorem linked_of_has {st : Statement} {cs : List Condition} {e : Condition} (h : Condition.Has cs e)
    (hcs : ∀ d ∈ cs, d ∈ st.tables.conditions ++ st.conditions) {a b : String} (ha : a ∈ e.aliases)
    (hb : b ∈ e.aliases) : EqvGen st.Adjacent a b := by
  by_cases hab : a = b
  · exact hab ▸ .refl a
  · obtain ⟨d, hd, hde⟩ := h
    have same := Condition.mem_aliases_congr hde
    exact .rel _ _ ⟨hab, d, hcs d hd, (same a).2 ha, (same b).2 hb⟩

end Sql.Statement

namespace Compile

open Pattern Sql

/-- **The alias carries the variable:** its triple pattern has it. -/
inductive Carries (q : Query) (ms : List Member) : String → Option Nat × String → Prop
  | intro {i : Nat} {m : Member} {p : Placement} {v : String} (hm : ms[i]? = some m) (hp : p ∈ m.piece.placements)
    (hv : v ∈ p.triple.vars) : Carries q ms p.aliasName (q.meaning i v)

/-- **A triple pattern that is not the first one shares a variable** with what is known or stands before it. -/
theorem Member.Of.exists_shared {cat : Catalog} {gp : GraphPattern} {m : Member} (h : m.Of cat gp)
    {pre post : List Placement} {p : Placement} (hne : pre ≠ []) (hp : m.piece.placements = pre ++ p :: post) :
    ∃ v ∈ p.triple.vars, v ∈ m.piece.base.vars ∨ ∃ p' ∈ pre, v ∈ p'.triple.vars := by
  obtain ⟨p₀, pre, rfl⟩ := List.exists_cons_of_ne_nil hne
  have horder := h.triples
  rw [hp, joinOrder] at horder
  split at horder
  · cases horder
  · next t ts _ =>
    rw [List.cons_append, List.map_cons, List.map_append, List.map_cons, List.cons.injEq] at horder
    obtain ⟨rfl, harrange⟩ := horder
    have hreach := reaches_of_arrange harrange.symm
    simp only [reaches, List.any_eq_true, List.contains_iff_mem, List.mem_append, List.mem_flatMap, List.mem_map,
      exists_exists_and_eq_and] at hreach
    obtain ⟨v, hv, (hb | h₀) | ⟨p', hp', hv'⟩⟩ := hreach
    · exact ⟨v, hv, .inl hb⟩
    · exact ⟨v, hv, .inr ⟨p₀, List.mem_cons_self .., h₀⟩⟩
    · exact ⟨v, hv, .inr ⟨p', List.mem_cons_of_mem _ hp', hv'⟩⟩

namespace Compilation

variable {cat : Catalog} {q : Query} {targets : List String} {ordering : Option (String × Direction)}
  {st : Statement} {req opt : List Member} {i j : Nat} {m n : Member} {p p' : Placement} {v w a b : String}
  {c d : Column} {o o' : Option Nat × String}

/-- The element that a member stands for. -/
theorem exists_element (h : Compilation cat q targets ordering st req opt) (hm : (req ++ opt)[i]? = some m) :
    ∃ gp, (q.required ++ q.optional)[i]? = some (.pattern gp) ∧ m.Of cat gp := by
  obtain ⟨e, he, gp, rfl, hof⟩ := exists_getElem?_of_forall₂ h.members.flip hm
  exact ⟨gp, he, hof⟩

/-- The first triple pattern of an element is the one that is placed first. -/
theorem first?_eq (h : Compilation cat q targets ordering st req opt) (hm : (req ++ opt)[i]? = some m) :
    q.first? i = some m.piece.first.triple := by
  obtain ⟨gp, he, hof⟩ := h.exists_element hm
  obtain ⟨t, ts, rest, hgp, horder, -⟩ := hof.exists_triples
  rw [Query.first?, he, Option.bind_some, Element.triples, hgp, List.head?_cons, (List.cons.inj horder).1]

/-- Where there is a first triple pattern, there is a member for its element. -/
theorem exists_of_first? (h : Compilation cat q targets ordering st req opt) {t : Triple}
    (ht : q.first? i = some t) : ∃ m, (req ++ opt)[i]? = some m ∧ t = m.piece.first.triple := by
  obtain ⟨e, he, -⟩ := Option.bind_eq_some_iff.1 ht
  obtain ⟨m, hm, -⟩ := exists_getElem?_of_forall₂ h.members he
  exact ⟨m, hm, Option.some.inj (ht.symm.trans (h.first?_eq hm))⟩

/-- A statement has tables. -/
theorem exists_first (h : Compilation cat q targets ordering st req opt) : ∃ m, (req ++ opt)[0]? = some m := by
  cases hms : req ++ opt with
  | cons m ms => exact ⟨m, rfl⟩
  | nil =>
    have hparts := h.parts_eq
    rw [hms, List.map_nil] at hparts
    unfold JoinTree.parts at hparts
    split at hparts
    · exact absurd hparts (List.append_ne_nil_of_right_ne_nil _ (List.cons_ne_nil _ _))
    · cases hparts

/-- Every alias of a statement is that of a placement of some member. -/
theorem mem_aliases (h : Compilation cat q targets ordering st req opt) :
    a ∈ st.tables.aliases ↔ ∃ (i : Nat) (m : Member) (p : Placement),
      (req ++ opt)[i]? = some m ∧ p ∈ m.piece.placements ∧ p.aliasName = a := by
  rw [h.tables_aliases, aliasesOf, List.mem_flatMap]
  constructor
  · rintro ⟨m, hm, ha⟩
    obtain ⟨i, hi⟩ := List.mem_iff_getElem?.1 hm
    obtain ⟨p, hp, rfl⟩ := List.mem_map.1 ha
    exact ⟨i, m, p, hi, hp, rfl⟩
  · rintro ⟨i, m, p, hm, hp, rfl⟩
    exact ⟨m, List.mem_of_getElem? hm, List.mem_map_of_mem hp⟩

/-- No condition reads a table that is not in the statement. -/
theorem reads_aliases (h : Compilation cat q targets ordering st req opt) :
    ∀ e ∈ st.tables.conditions ++ st.conditions, ∀ a ∈ e.aliases, a ∈ st.tables.aliases := by
  intro e he a ha
  rcases List.mem_append.1 he with he | he
  · exact h.wellScoped.aliases_subset e he a ha
  · exact (h.inScope.conditions e he a ha).1

/-- **An alias tells the placement, the member and the place of the member.** -/
theorem placement_at_ext (h : Compilation cat q targets ordering st req opt) (hm : (req ++ opt)[i]? = some m)
    (hn : (req ++ opt)[j]? = some n) (hp : p ∈ m.piece.placements) (hp' : p' ∈ n.piece.placements)
    (he : p.aliasName = p'.aliasName) : i = j ∧ m = n ∧ p = p' := by
  have hmem := List.mem_of_getElem? hm
  have hmem' := List.mem_of_getElem? hn
  obtain rfl := h.placement_ext (mem_placementsOf.2 ⟨m, hmem, hp⟩) (mem_placementsOf.2 ⟨n, hmem', hp'⟩) he
  obtain rfl := h.member_ext hmem hmem' hp hp'
  exact ⟨(List.getElem?_inj (List.getElem?_eq_some_iff.1 hm).1 h.nodup_members).1 (hm.trans hn.symm), rfl, rfl⟩

/-- The variables of the required elements are those with a required column. -/
theorem mem_required_vars (h : Compilation cat q targets ordering st req opt) :
    v ∈ q.required.flatMap Element.vars ↔ ∃ c, (v, c) ∈ columnsOf req := h.required.mem_vars

/-- The column that a variable of required elements is bound to, after whatever element, is its first one in them. -/
theorem lookup_of_required (h : Compilation cat q targets ordering st req opt) (hm : m ∈ req ++ opt)
    (hv : v ∈ q.required.flatMap Element.vars) (hc : m.piece.bindings.column? v = some c) :
    (columnsOf req).lookup v = some c := by
  rcases List.mem_append.1 hm with hm | hm
  · exact h.lookup_of_bindings hm hc
  · rw [Piece.bindings, h.optionalBases m hm, Bindings.column?_bindAll, column?_bindAll_empty] at hc
    cases hl : (columnsOf req).lookup v with
    | none =>
      obtain ⟨d, hd⟩ := h.mem_required_vars.1 hv
      exact absurd hd (not_mem_of_lookup hl d)
    | some d => rwa [hl, Option.some_or] at hc

/-- **One variable is bound to one column.** -/
theorem bindings_congr (h : Compilation cat q targets ordering st req opt) (hm : (req ++ opt)[i]? = some m)
    (hn : (req ++ opt)[j]? = some n) (he : q.meaning i v = q.meaning j w) (hc : m.piece.bindings.column? v = some c)
    (hd : n.piece.bindings.column? w = some d) : c = d := by
  obtain ⟨rfl, hv | rfl⟩ := Query.meaning_eq_meaning_iff.1 he
  · exact Option.some.inj ((h.lookup_of_required (List.mem_of_getElem? hm) hv hc).symm.trans
      (h.lookup_of_required (List.mem_of_getElem? hn) hv hd))
  · obtain rfl := Option.some.inj (hm.symm.trans hn)
    exact Option.some.inj (hc.symm.trans hd)

/-- **A triple pattern is linked to the column of each of its variables.** -/
theorem linked_binding (h : Compilation cat q targets ordering st req opt) (hm : (req ++ opt)[i]? = some m)
    (hp : p ∈ m.piece.placements) (hv : v ∈ p.triple.vars) :
    ∃ c, m.piece.bindings.column? v = some c ∧ EqvGen st.Adjacent p.aliasName c.tableAlias := by
  have hmem := List.mem_of_getElem? hm
  have hplaced := h.members.placed hmem
  obtain ⟨c, hc⟩ : ∃ c, p.column? v = some c := by
    obtain ⟨c, hc⟩ := Placement.mem_vars.1 hv
    rw [Placement.column?, ← Option.isSome_iff_exists, List.lookup_isSome_iff]
    exact ⟨_, hc, by simp⟩
  have hpc := Placement.mem_columns_of_column? hc
  have hloose : ¬ m.piece.Loose v c := by
    rintro ⟨-, hfirst, hne⟩
    refine hne ?_
    rwa [← h.placement_eq_of_columns hmem hp hmem (List.mem_cons_self ..) (Placement.mem_columns.1 hpc)
      (Placement.mem_columns.1 hfirst) rfl]
  obtain ⟨d, hd, hcd⟩ := (h.enforced hmem).columns (Piece.mem_columns.2 ⟨p, hp, hpc⟩) hloose
  have halias : c.tableAlias = p.aliasName := (hplaced p hp).tableAlias_eq_of_mem_columns hpc
  refine ⟨d, hd, ?_⟩
  rw [← halias]
  rcases hcd with rfl | hcd
  · exact .refl _
  · exact Statement.linked_of_has hcd (h.conditions_subset hmem) (Condition.mem_aliases.2 (.inl rfl))
      (Condition.mem_aliases.2 (.inr rfl))

/-- **Aliases that carry one variable are linked.** -/
theorem linked_of_carries (h : Compilation cat q targets ordering st req opt) (ha : Carries q (req ++ opt) a o)
    (hb : Carries q (req ++ opt) b o) : EqvGen st.Adjacent a b := by
  obtain @⟨i, m, p, v, hm, hp, hv⟩ := ha
  generalize ho : q.meaning i v = o at hb
  obtain @⟨j, n, p', w, hn, hp', hw⟩ := hb
  obtain ⟨c, hc, hac⟩ := h.linked_binding hm hp hv
  obtain ⟨d, hd, hbd⟩ := h.linked_binding hn hp' hw
  obtain rfl := h.bindings_congr hm hn ho hc hd
  exact .trans _ _ _ hac (.symm _ _ hbd)

/-- A variable with a column in a required element is the same in all elements. -/
theorem meaning_congr (h : Compilation cat q targets ordering st req opt) (hn : n ∈ req)
    (hc : (v, c) ∈ n.piece.columns) (i j : Nat) : q.meaning i v = q.meaning j v :=
  Query.meaning_eq_meaning_iff.2 ⟨rfl, .inl (h.mem_required_vars.2 ⟨c, List.mem_flatMap.2 ⟨n, hn, hc⟩⟩)⟩

/-- What an element knows is carried by the aliases of required elements before it. -/
theorem exists_carries_of_base (h : Compilation cat q targets ordering st req opt)
    (hm : (req ++ opt)[i]? = some m) (hv : v ∈ m.piece.base.vars) :
    ∃ j n p, j < i ∧ (req ++ opt)[j]? = some n ∧ p ∈ n.piece.placements ∧ v ∈ p.triple.vars ∧
      q.meaning j v = q.meaning i v := by
  rw [h.mem_base_vars hm, Query.known, MembersOf.mem_vars (List.forall₂_take i h.required)] at hv
  obtain ⟨c, hc⟩ := hv
  obtain ⟨n, hn, hnc⟩ := List.mem_flatMap.1 hc
  obtain ⟨p, hp, hpc⟩ := Piece.mem_columns.1 hnc
  obtain ⟨j, hj⟩ := List.mem_iff_getElem?.1 hn
  rw [List.getElem?_take, Option.ite_none_right_eq_some] at hj
  obtain ⟨hji, hreq⟩ := hj
  refine ⟨j, n, p, hji, ?_, hp, Placement.mem_vars.2 ⟨c, hpc⟩, h.meaning_congr (List.mem_of_getElem? hreq) hnc j i⟩
  rw [List.getElem?_append_left (List.getElem?_eq_some_iff.1 hreq).1, hreq]

/-- **A column that stands for a variable is one of an alias that carries it.** -/
theorem carries_of_column (h : Compilation cat q targets ordering st req opt) (hm : (req ++ opt)[i]? = some m)
    (hc : m.piece.Column v c) : Carries q (req ++ opt) c.tableAlias (q.meaning i v) := by
  have own : ∀ {j n}, (req ++ opt)[j]? = some n → (v, c) ∈ n.piece.columns →
      Carries q (req ++ opt) c.tableAlias (q.meaning j v) := fun {j n} hn hc => by
    obtain ⟨p, hp, hpc⟩ := Piece.mem_columns.1 hc
    rw [(h.members.placed (List.mem_of_getElem? hn) p hp).tableAlias_eq_of_mem_columns hpc]
    exact .intro hn hp (Placement.mem_vars.2 ⟨c, hpc⟩)
  rcases hc.base_or_mem with hc | hc
  · obtain ⟨n, hn, hl⟩ := h.exists_lookup_of_base (List.mem_of_getElem? hm) hc
    obtain ⟨j, hj⟩ := List.mem_iff_getElem?.1 (List.mem_append_left opt hn)
    rw [h.meaning_congr hn (mem_of_lookup hl) i j]
    exact own hj (mem_of_lookup hl)
  · exact own hm hc

/-- **Variables that meet are carried by linked aliases.** -/
theorem exists_linked_of_meets (h : Compilation cat q targets ordering st req opt) (ho : q.Meets o o') :
    ∃ a b, Carries q (req ++ opt) a o ∧ Carries q (req ++ opt) b o' ∧ EqvGen st.Adjacent a b := by
  obtain ⟨he, ht, hv, hw⟩ | ⟨he, hf, hv, hw⟩ := ho
  · obtain ⟨m, hm, gp, rfl, hof⟩ := exists_getElem?_of_forall₂ h.members he
    obtain ⟨p, hp, rfl⟩ := List.mem_map.1 (hof.triples_perm.mem_iff.2 ht)
    exact ⟨_, _, .intro hm hp hv, .intro hm hp hw, .refl _⟩
  · obtain ⟨m, hm, gp, rfl, hof⟩ := exists_getElem?_of_forall₂ h.members he
    obtain ⟨f', hf', haccept⟩ := exists_right_of_forall₂ (mapM_eq_ok_except.1 hof.accepted) hf
    have hmem := List.mem_of_getElem? hm
    obtain ⟨column?, e, he, hhas, hcolumn⟩ := (h.enforced hmem).filters hf'
    rw [← Pending.accept_vars haccept] at hv hw
    obtain ⟨c, hc, hce⟩ := exists_column_of_mem_vars he hv
    obtain ⟨d, hd, hde⟩ := exists_column_of_mem_vars he hw
    exact ⟨_, _, h.carries_of_column hm (hcolumn _ _ hc), h.carries_of_column hm (hcolumn _ _ hd),
      Statement.linked_of_has hhas (h.conditions_subset hmem) hce hde⟩

/-- **The variables that one alias carries meet.** -/
theorem meets_of_carries (h : Compilation cat q targets ordering st req opt) (ho : Carries q (req ++ opt) a o)
    (ho' : Carries q (req ++ opt) a o') : EqvGen q.Meets o o' := by
  obtain @⟨i, m, p, v, hm, hp, hv⟩ := ho
  generalize ha : p.aliasName = a at ho'
  obtain @⟨j, n, p', w, hn, hp', hw⟩ := ho'
  obtain ⟨rfl, rfl, rfl⟩ := h.placement_at_ext hm hn hp hp' ha
  obtain ⟨gp, he, hof⟩ := h.exists_element hm
  exact .rel _ _ (.triple he (hof.triples_perm.mem_iff.1 (List.mem_map_of_mem hp)) hv hw)

/-- **Adjacent aliases carry variables that meet.** -/
theorem exists_meets_of_adjacent (h : Compilation cat q targets ordering st req opt) (hab : st.Adjacent a b) :
    ∃ o o', Carries q (req ++ opt) a o ∧ Carries q (req ++ opt) b o' ∧ EqvGen q.Meets o o' := by
  obtain ⟨hne, e, he, ha, hb⟩ := hab
  obtain ⟨m, hmem, hg⟩ := h.exists_grounds he
  obtain ⟨i, hm⟩ := List.mem_iff_getElem?.1 hmem
  obtain ⟨gp, hi, hof⟩ := h.exists_element hm
  cases hg with
  | constant _ => exact absurd ((List.mem_singleton.1 ha).trans (List.mem_singleton.1 hb).symm) hne
  | @equality v c d hc hd =>
    have hread : ∀ {b}, b ∈ (Condition.columnsEqual c d).aliases → Carries q (req ++ opt) b (q.meaning i v) :=
      fun hb => by
        rcases Condition.mem_aliases.1 hb with hb | hb
        · exact Option.some.inj hb ▸ h.carries_of_column hm hc
        · exact Option.some.inj hb ▸ h.carries_of_column hm hd
    exact ⟨_, _, hread ha, hread hb, .refl _⟩
  | filter hf he hcolumn =>
    obtain ⟨v, hv, c, hc, rfl⟩ := exists_var_of_mem_aliases he ha
    obtain ⟨w, hw, d, hd, rfl⟩ := exists_var_of_mem_aliases he hb
    obtain ⟨f, hf, haccept⟩ := exists_left_of_forall₂ (mapM_eq_ok_except.1 hof.accepted) hf
    rw [Pending.accept_vars haccept] at hv hw
    exact ⟨_, _, h.carries_of_column hm (hcolumn _ _ hc), h.carries_of_column hm (hcolumn _ _ hd),
      .rel _ _ (.filter hi hf hv hw)⟩

/-- What a table of a placement carries is the meaning of a variable of its triple pattern. -/
theorem exists_var_of_carries (h : Compilation cat q targets ordering st req opt) (hm : (req ++ opt)[i]? = some m)
    (hp : p ∈ m.piece.placements) (ho : Carries q (req ++ opt) p.aliasName o) :
    ∃ v ∈ p.triple.vars, o = q.meaning i v := by
  generalize ha : p.aliasName = a at ho
  obtain @⟨j, n, p', v, hn, hp', hv⟩ := ho
  obtain ⟨rfl, rfl, rfl⟩ := h.placement_at_ext hm hn hp hp' ha
  exact ⟨v, hv, rfl⟩

/-- **Where the elements are tied, every alias is linked to the first one.** From element to element, and in an element
from triple pattern to triple pattern, each is linked to one before it. -/
theorem linked_first (h : Compilation cat q targets ordering st req opt) (hq : q.IsTied) {m₀ : Member}
    (h₀ : (req ++ opt)[0]? = some m₀) (hm : (req ++ opt)[i]? = some m) (hp : p ∈ m.piece.placements) :
    EqvGen st.Adjacent p.aliasName m₀.piece.first.aliasName := by
  induction i using Nat.strongRecOn generalizing m p with
  | ind i ih =>
    have hfirst : EqvGen st.Adjacent m.piece.first.aliasName m₀.piece.first.aliasName := by
      rcases hq i _ _ (h.first?_eq hm) (h.first?_eq h₀) with rfl | ⟨v, hv, w, hw, hvw⟩
      · obtain rfl := Option.some.inj (hm.symm.trans h₀)
        exact .refl _
      · exact eqvGen_of_eqvGen (Carries q (req ++ opt)) (fun _ _ _ => h.linked_of_carries)
          (fun _ _ => h.exists_linked_of_meets) hvw (.intro hm (List.mem_cons_self ..) hv)
          (.intro h₀ (List.mem_cons_self ..) hw)
    -- Inside the element the induction is on the placements that have been joined, from the first one on.
    suffices hpre : ∀ pre post, m.piece.placements = pre ++ post → ∀ p ∈ pre,
        EqvGen st.Adjacent p.aliasName m₀.piece.first.aliasName from hpre _ [] (List.append_nil _).symm p hp
    intro pre
    induction pre using List.reverseRecOn with
    | nil => exact fun _ _ _ hp => nomatch hp
    | append_singleton pre p hpre =>
      intro post heq
      rw [List.append_assoc, List.singleton_append] at heq
      have hbefore := hpre _ heq
      have hmem : p ∈ m.piece.placements := heq ▸ List.mem_append_right _ (List.mem_cons_self ..)
      refine fun p' hp' => (List.mem_append.1 hp').elim (hbefore p') fun hp' => ?_
      obtain rfl := List.mem_singleton.1 hp'
      by_cases hne : pre = []
      · subst hne
        exact (List.cons.inj heq).1 ▸ hfirst
      · obtain ⟨gp, -, hof⟩ := h.exists_element hm
        obtain ⟨v, hv, hbase | ⟨q', hq', hv'⟩⟩ := hof.exists_shared hne heq
        · obtain ⟨j, n, r, hji, hn, hr, hvr, hmeaning⟩ := h.exists_carries_of_base hm hbase
          exact .trans _ _ _ (h.linked_of_carries (.intro hm hmem hv) (hmeaning ▸ .intro hn hr hvr)) (ih j hji hn hr)
        · have hmem' : q' ∈ m.piece.placements := heq ▸ List.mem_append_left _ hq'
          exact .trans _ _ _ (h.linked_of_carries (.intro hm hmem hv) (.intro hm hmem' hv')) (hbefore q' hq')

/-- **A statement is connected exactly if the elements of its query are tied.** -/
theorem connected_iff (h : Compilation cat q targets ordering st req opt) : st.graph.Connected ↔ q.IsTied := by
  have hfirst : ∀ {i : Nat} {m : Member}, (req ++ opt)[i]? = some m →
      m.piece.first.aliasName ∈ st.tables.aliases := fun hm =>
    h.mem_aliases.2 ⟨_, _, _, hm, List.mem_cons_self .., rfl⟩
  constructor
  · intro hconn i t t₀ ht ht₀
    obtain ⟨m, hm, rfl⟩ := h.exists_of_first? ht
    obtain ⟨m₀, h₀, rfl⟩ := h.exists_of_first? ht₀
    have hlinked := (Statement.reachable_iff h.reads_aliases).1 (hconn.preconnected ⟨_, hfirst hm⟩ ⟨_, hfirst h₀⟩)
    rcases exists_of_eqvGen (fun o a => Carries q (req ++ opt) a o) (fun _ _ _ => h.meets_of_carries)
      (fun _ _ => h.exists_meets_of_adjacent) hlinked with heq | ⟨o, o', ho, ho', hmeets⟩
    · exact .inl (h.placement_at_ext hm h₀ (List.mem_cons_self ..) (List.mem_cons_self ..) heq).1
    · obtain ⟨v, hv, rfl⟩ := h.exists_var_of_carries hm (List.mem_cons_self ..) ho
      obtain ⟨w, hw, rfl⟩ := h.exists_var_of_carries h₀ (List.mem_cons_self ..) ho'
      exact .inr ⟨v, hv, w, hw, hmeets⟩
  · intro hq
    obtain ⟨m₀, h₀⟩ := h.exists_first
    refine SimpleGraph.connected_iff_exists_forall_reachable _ |>.2 ⟨⟨_, hfirst h₀⟩, fun ⟨a, ha⟩ => ?_⟩
    obtain ⟨i, m, p, hm, hp, rfl⟩ := h.mem_aliases.1 ha
    exact ((Statement.reachable_iff h.reads_aliases).2 (h.linked_first hq h₀ hm hp)).symm

end Compilation

/-- **When the tables of a statement are connected.** Whatever the catalog, the conditions of a statement that compiles
connect its tables exactly if the elements of its query are tied to the first one. -/
theorem Session.build_connected_iff {S : Session} {st : Statement} (h : S.build.1 = .ok st) :
    st.graph.Connected ↔ S.query.IsTied := by
  obtain ⟨-, scope, hs⟩ := Session.build_eq_ok h
  obtain ⟨req, opt, hc⟩ := statement_eq_ok hs
  exact hc.connected_iff

/-- The elements of `friends` are tied, the second one by its second triple pattern and the third one by its first. -/
theorem Session.friends_connected : ∃ st, friends.build.1 = .ok st ∧ st.graph.Connected := by
  obtain ⟨st, h⟩ := exists_build_friends
  refine ⟨st, h, (build_connected_iff h).2 fun i t t₀ ht ht₀ => ?_⟩
  obtain rfl := Option.some.inj ht₀
  match i with
  | 0 => exact .inl rfl
  | 1 =>
    obtain rfl := Option.some.inj ht
    have hmeets : friends.query.Meets (friends.query.meaning 1 "z") (friends.query.meaning 1 "x") :=
      .triple rfl (List.mem_cons_of_mem _ (List.mem_cons_self ..)) (by decide) (by decide)
    exact .inr ⟨"z", by decide, "x", by decide, .rel _ _ hmeets⟩
  | 2 =>
    obtain rfl := Option.some.inj ht
    exact .inr ⟨"x", by decide, "x", by decide, .refl _⟩
  | _ + 3 => cases ht

/-- Who knows whom, next to who likes what: the second element is joined where its second triple pattern is. -/
def Session.strangers : Session where
  catalog := friends.catalog
  query :=
    { required :=
        [.pattern ⟨[⟨.var "a", .const "<knows>", .var "b"⟩], []⟩,
         .pattern ⟨[⟨.var "c", .const "<likes>", .var "d"⟩, ⟨.var "a", .const "<age>", .var "e"⟩], []⟩] }
  targets := ["a", "c"]

/-- The required part of `strangers` is joined without a condition on `likes`. -/
theorem Session.build_strangers : strangers.build.1 = .ok
    { select := [⟨"knows", "s"⟩, ⟨"likes", "s"⟩]
      tables := .join (.base (.table ⟨"knows", "knows"⟩)) .inner
        (.nested (.join (.base (.table ⟨"likes", "likes"⟩)) .inner (.table ⟨"age", "age"⟩) []))
        [Condition.columnsEqual ⟨"knows", "s"⟩ ⟨"age", "s"⟩]
      conditions := []
      ordering := none } := by
  decide +kernel

/-- **Not every statement is connected:** all who know somebody stand next to all that somebody likes. -/
theorem Session.strangers_not_connected : ∃ st, strangers.catalog.check = .ok () ∧ strangers.build.1 = .ok st ∧
    ¬ st.graph.Connected := by
  refine ⟨_, by decide +kernel, build_strangers, fun hconn => ?_⟩
  -- The only condition reads `knows` and `age`, so nothing is adjacent to `likes`.
  obtain ⟨walk⟩ := hconn.preconnected ⟨"likes", by decide⟩ ⟨"knows", by decide⟩
  obtain ⟨-, e, he, hlikes, -⟩ := walk.adj_snd (SimpleGraph.Walk.not_nil_of_ne (by decide))
  obtain rfl := List.mem_singleton.1 he
  exact absurd hlikes (by decide)

end Compile
end TripleSql
