/-
# What a statement is made of

A statement that compiles has a member for each element of the query (`Compilation`): a piece, and a part of the join
tree that holds the tables of the piece. The required members come first, joined by inner joins, then the optional
ones, joined by left outer joins.

All conditions inside a part, and those that it is joined on, are grounded in its piece. Those of an optional part
enforce the piece alone; those of a required part do so together with `WHERE`. Every condition in `WHERE` is grounded in
a required piece.
-/

import TripleSql.Proofs.Fragments

namespace TripleSql
namespace Compile

open Pattern Sql

/-- A compiled element: what is known of it, and where it stands in the statement. -/
structure Member where
  piece : Piece
  part : Part

/-- **The member is that of a graph pattern:** it has a placement for each triple pattern, in joining order, and no
condition that is not grounded in its piece. -/
structure Member.Of (cat : Catalog) (gp : GraphPattern) (m : Member) : Prop where
  triples : m.piece.placements.map Placement.triple = joinOrder m.piece.base.vars gp
  perm : (joinOrder m.piece.base.vars gp).Perm gp.triples
  accepted : gp.filters.mapM Pending.accept = .ok m.piece.filters
  placed : ∀ p ∈ m.piece.placements, p.Of cat
  chain : m.part.tree.IsChain
  wellScoped : m.part.tree.WellScoped
  tables : m.part.tree.tables = m.piece.placements.map Placement.table
  grounds : ∀ e ∈ m.part.conditions, m.piece.Grounds e

/-- The columns of some members. -/
def columnsOf (ms : List Member) : List (String × Column) := ms.flatMap (·.piece.columns)

/-- The aliases of some members. -/
def aliasesOf (ms : List Member) : List String := ms.flatMap (·.piece.aliases)

namespace Scope

/-- The constants that wait, under whatever alias. -/
def waiting (s : Scope) : List Condition := s.constants.entries.map (·.2)

/-- What waits, waits under some alias. -/
theorem mem_waiting {s : Scope} {e : Condition} : e ∈ s.waiting ↔ ∃ a, e ∈ s.constants.under a := by
  simp only [waiting, List.mem_map, Prod.exists, exists_eq_right, Constants.mem_under]

/-- If what waits under each alias goes on to wait there, so does all that waits. -/
theorem mem_waiting_of_under {s s' : Scope} {e : Condition}
    (h : ∀ {a e}, e ∈ s.constants.under a → e ∈ s'.constants.under a) (he : e ∈ s.waiting) : e ∈ s'.waiting := by
  obtain ⟨a, ha⟩ := mem_waiting.1 he
  exact mem_waiting.2 ⟨a, h ha⟩

end Scope

namespace Compiled

variable {cat : Catalog} {gp : GraphPattern} {base s : Scope} {x : Piece} {f : Fragment}

/-- The tree of a compiled graph pattern has the aliases of its placements. -/
theorem tree_aliases (h : Compiled cat gp base x f s) : f.tree.aliases = x.aliases :=
  Piece.aliases_of_tables h.tables

/-- The aliases of a piece are not those that were taken before it. -/
theorem not_mem_taken (h : Compiled cat gp base x f s) {a : String} (ha : a ∈ x.aliases) :
    a ∉ base.aliases.taken := h.fresh.not_mem_of_taken h.taken ha

section Attach

variable {t : JoinTree} {kind : JoinKind} {on : List Condition}

/-- Attaching a compiled graph pattern puts the aliases of its placements behind the others. -/
theorem aliases_attach (h : Compiled cat gp base x f s) :
    (t.attach ⟨kind, f.tree, on⟩).aliases = t.aliases ++ x.aliases := by
  rw [JoinTree.aliases_attach, ← h.tree_aliases]
  rfl

/-- **Joined on conditions that are grounded in its piece,** a fragment leaves a tree well scoped that has the columns
known before. -/
theorem wellScoped_attach (h : Compiled cat gp base x f s) (ht : t.WellScoped) (hon : ∀ e ∈ on, x.Grounds e)
    (hbase : ∀ {v c}, x.base.column? v = some c → c.tableAlias ∈ t.aliases) :
    (t.attach ⟨kind, f.tree, on⟩).WellScoped := by
  refine JoinTree.wellScoped_attach.2 ⟨ht, h.wellScoped, fun e he => ?_⟩
  have haliases : Part.aliases ⟨kind, f.tree, on⟩ = x.aliases := h.tree_aliases
  rw [haliases]
  exact (hon e he).aliases_subset h.placed hbase

end Attach

/-- A member with the tree of the fragment is one of the graph pattern. -/
theorem memberOf (h : Compiled cat gp base x f s) {kind : JoinKind} {on : List Condition}
    (hon : ∀ e ∈ on, x.Grounds e) : Member.Of cat gp ⟨x, ⟨kind, f.tree, on⟩⟩ where
  triples := h.base_eq ▸ h.triples
  perm := h.base_eq ▸ h.perm
  accepted := h.accepted
  placed := h.placed
  chain := h.chain
  wellScoped := h.wellScoped
  tables := h.tables
  grounds e he := by
    rcases List.mem_append.1 he with he | he
    · exact h.grounds e (List.mem_append_left _ (List.mem_append_left _ he))
    · exact hon e he

/-- **The conditions of a fragment enforce its piece** as soon as they have its constants and the links to the columns
that its first triple pattern shares with what stands before. -/
theorem enforced (h : Compiled cat gp base x f s) {cs : List Condition}
    (hconditions : ∀ e ∈ f.conditions, Condition.Has cs e)
    (hconstants : ∀ {c a}, Condition.Has (s.constants.under c.tableAlias) (Condition.columnIs c a) →
      x.Constant c a → Condition.Has cs (Condition.columnIs c a))
    (hlinks : ∀ {v c d}, (v, c) ∈ x.columns → x.base.column? v = some d →
      Condition.Has cs (Condition.columnsEqual c d)) : x.Enforced cs where
  constants {c a} hc :=
    (h.constants hc).elim (fun hh => hh.trans hconditions) fun hh => hconstants hh hc
  columns {v c} hc hloose := by
    obtain ⟨p, hp, hpc⟩ := Piece.mem_columns.1 hc
    rcases List.mem_cons.1 hp with rfl | hp
    · cases hb : x.base.column? v with
      | some d => exact ⟨d, Bindings.column?_bindAll_of_column? hb _, .inr (hlinks hc hb)⟩
      | none =>
        have hfirst : x.first.column? v = some c := by
          by_contra hne
          exact hloose ⟨hb, hpc, hne⟩
        refine ⟨c, ?_, .inl rfl⟩
        rw [Piece.bindings, Bindings.column?_bindAll, hb, Option.none_or, Piece.columns, Piece.placements,
          List.flatMap_cons, List.lookup_append]
        exact Option.or_eq_some_iff.2 (.inl hfirst)
    · obtain ⟨d, hd, hdc⟩ := h.columns hp hpc
      exact ⟨d, hd, hdc.imp_right fun hh => hh.trans hconditions⟩
  filters {q} hq := by
    obtain ⟨column?, e, he, hh, hcolumn⟩ := h.filters q hq
    exact ⟨column?, e, he, hh.trans hconditions, hcolumn⟩

/-- Constants that wait before an element wait after it. -/
theorem waiting_of_mem (h : Compiled cat gp base x f s) (hbase : base.Fresh) {a : String} {e : Condition}
    (he : e ∈ base.constants.under a) : e ∈ s.constants.under a := by
  rw [h.untouched fun ha => h.not_mem_taken ha (hbase.constants he)]
  exact he

/-- **What waits under the aliases of an element is its own:** constants of its triple patterns. -/
theorem grounds_of_mem_takeAll (h : Compiled cat gp base x f s) (hbase : base.Fresh) {e : Condition}
    (he : e ∈ (s.constants.takeAll f.tree.aliases).1) : x.Grounds e := by
  obtain ⟨a, ha, he⟩ := Constants.mem_takeAll.1 he
  rw [h.tree_aliases] at ha
  have hown := (h.waiting he).resolve_left fun hb => h.not_mem_taken ha (hbase.constants hb)
  obtain ⟨c, b, hc, -, rfl⟩ := hown
  exact .constant hc

/-- **Once it is taken, all waits as before** the element. -/
theorem under_takeAll (h : Compiled cat gp base x f s) (hbase : base.Fresh) (a : String) :
    (s.constants.takeAll f.tree.aliases).2.under a = base.constants.under a := by
  rw [Constants.under_takeAll, h.tree_aliases]
  split
  · next ha =>
    refine (List.eq_nil_iff_forall_not_mem.2 fun e he => ?_).symm
    exact h.not_mem_taken ha (hbase.constants he)
  · next ha => exact h.untouched ha

end Compiled

namespace Assembly

/-- A link is the equality of a column of the fragment and another one before it that the variable is bound to. -/
theorem mem_links {a : Assembly} {f : Fragment} {b : Bindings} {e : Condition} :
    e ∈ a.links f b ↔ ∃ v c d, (v, c) ∈ f.columns ∧ b.column? v = some d ∧ (v, d) ∈ a.columns ∧ d ≠ c ∧
      e = Condition.columnsEqual d c := by
  simp only [links, List.mem_filterMap, Prod.exists]
  refine exists_congr fun v => exists_congr fun c => ?_
  cases hb : b.column? v with
  | none => simp
  | some d =>
    simp only [Option.some.injEq, exists_and_left, exists_eq_left']
    refine and_congr_right fun _ => ?_
    split
    · next h => simp [h.1, h.2, eq_comm]
    · next h => exact iff_of_false nofun fun ⟨hd, hne, _⟩ => h ⟨hd, hne⟩

/-- What joining a fragment gives, in full. -/
theorem eq_of_attach {kind : JoinKind} {more : List Condition} {f : Fragment} {b : Bindings} {a a' : Assembly}
    (h : a.attach kind more f b = .ok a') :
    a' = ⟨a.tree.attach ⟨kind, f.tree, Condition.pushAll (a.connections f b) more⟩, addColumns a.columns f.columns,
      a.residual⟩ := by
  unfold attach at h
  dsimp only at h
  split at h
  · cases h
  · cases h
    rfl

/-- What joining a fragment gives: a part whose conditions are the links, those from inside and some more. -/
theorem attach_eq_ok {kind : JoinKind} {more : List Condition} {f : Fragment} {b : Bindings}
    {a a' : Assembly} (h : a.attach kind more f b = .ok a') : ∃ on,
      a' = ⟨a.tree.attach ⟨kind, f.tree, on⟩, addColumns a.columns f.columns, a.residual⟩ ∧
      (∀ e ∈ on, e ∈ a.links f b ∨ e ∈ f.outer ∨ e ∈ more) ∧
      ∀ e, e ∈ a.links f b ∨ e ∈ f.outer ∨ e ∈ more → Condition.Has on e := by
  refine ⟨_, eq_of_attach h, fun e he => ?_, fun e he => ?_⟩
  · rcases Condition.mem_pushAll he with he | he
    · exact (List.mem_append.1 (Condition.mem_distinct he)).imp_right .inl
    · exact .inr (.inr he)
  · have hc : ∀ {e}, e ∈ a.links f b ++ f.outer →
        Condition.Has (Condition.pushAll (a.connections f b) more) e := fun he =>
      (Condition.has_distinct he).mono fun d hd => Condition.mem_pushAll_of_mem hd more
    rcases he with he | he | he
    · exact hc (List.mem_append_left _ he)
    · exact hc (List.mem_append_right _ he)
    · exact Condition.has_pushAll he

/-- The assembly has the columns that variables are bound to, and no table that is not known. -/
structure Knows (a : Assembly) (s : Scope) : Prop where
  bound : ∀ {v d}, s.bindings.column? v = some d → (v, d) ∈ a.columns
  taken : ∀ {v d}, (v, d) ∈ a.columns → d.tableAlias ∈ s.aliases.taken

section Links

variable {cat : Catalog} {gp : GraphPattern} {base s : Scope} {x : Piece} {f : Fragment} {a : Assembly}
  {b : Bindings} {e : Condition}

/-- **A fragment is linked on its own columns and those that variables had before it,** whether the bindings before or
after it are asked. -/
theorem base_of_mem_links (ha : a.Knows base) (h : Compiled cat gp base x f s)
    (hb : b = base.bindings ∨ b = s.bindings) (he : e ∈ a.links f b) :
    ∃ v c d, (v, c) ∈ x.columns ∧ x.base.column? v = some d ∧ e = Condition.columnsEqual d c := by
  obtain ⟨v, c, d, hc, hd, hda, -, rfl⟩ := mem_links.1 he
  refine ⟨v, c, d, (h.mem_columns _).1 hc, ?_, rfl⟩
  rcases hb with rfl | rfl
  · exact h.base_eq ▸ hd
  · rw [h.bindings, Piece.bindings, Bindings.column?_bindAll, Option.or_eq_some_iff] at hd
    rcases hd with hd | ⟨-, hd⟩
    · exact hd
    · exact absurd (ha.taken hda) (h.not_mem_taken (Piece.tableAlias_mem h.placed (mem_of_lookup hd)))

/-- A link is grounded: its two columns stand for one variable. -/
theorem grounds_of_mem_links (ha : a.Knows base) (h : Compiled cat gp base x f s)
    (hb : b = base.bindings ∨ b = s.bindings) (he : e ∈ a.links f b) : x.Grounds e := by
  obtain ⟨v, c, d, hc, hd, rfl⟩ := base_of_mem_links ha h hb he
  exact .equality (.inl hd) (Piece.column_of_mem (Option.isSome_iff_exists.2 ⟨d, hd⟩) hc)

/-- **A fragment is linked on every variable** that had a column before it. -/
theorem mem_links_of_base (ha : a.Knows base) (hbase : base.Fresh) (h : Compiled cat gp base x f s)
    (hb : b = base.bindings ∨ b = s.bindings) {v : String} {c d : Column} (hc : (v, c) ∈ x.columns)
    (hd : x.base.column? v = some d) : Condition.columnsEqual d c ∈ a.links f b := by
  rw [h.base_eq] at hd
  refine mem_links.2 ⟨v, c, d, (h.mem_columns _).2 hc, ?_, ha.bound hd, fun hdc => ?_, rfl⟩
  · rcases hb with rfl | rfl
    · exact hd
    · rw [h.bindings, Piece.bindings, h.base_eq]
      exact Bindings.column?_bindAll_of_column? hd _
  · exact h.not_mem_taken (Piece.tableAlias_mem h.placed hc) (hdc ▸ hbase.bindings hd)

end Links

end Assembly
end Compile
end TripleSql
