/-
# The tables of a statement are the triple patterns of its query

The tables of a join tree, read from left to right at all depths, fall into one block for each element of the query, in
the order of the elements (`Session.build_leaves`). In the block of a graph pattern each triple pattern has one table,
that of its predicate. The first triple pattern has the first table, the others have theirs in the order in which they
are joined. Every alias stands once in the whole tree, so no table is shared between two triple patterns.
-/

import TripleSql.Proofs.Scoping

namespace TripleSql
namespace Compile

open Pattern Sql

/-- **The tables of an element:** it is a graph pattern, every triple pattern has one of them, the first one the first,
and each is the table of the predicate. -/
structure Seats (cat : Catalog) (e : Element) (seats : List (Triple × Table)) : Prop where
  pattern : ∃ gp t ts rest, e = .pattern gp ∧ gp.triples = t :: ts ∧ seats.map Prod.fst = t :: rest ∧ rest.Perm ts
  tables : ∀ s ∈ seats, cat.tableOf? s.1 = some s.2.name

namespace Member

/-- The triple patterns of a member in joining order, each with its table. -/
def seats (m : Member) : List (Triple × Table) := m.piece.placements.map fun p => (p.triple, p.table)

/-- The triple patterns of seats, in the order of the joins. -/
theorem map_fst_seats (m : Member) : m.seats.map Prod.fst = m.piece.placements.map Placement.triple := List.map_map

/-- The tables of seats, in the order of the joins. -/
theorem map_snd_seats (m : Member) : m.seats.map Prod.snd = m.piece.placements.map Placement.table := List.map_map

namespace Of

variable {cat : Catalog} {gp : GraphPattern} {m : Member}

/-- The first triple pattern of an element is joined first. -/
theorem exists_triples (h : m.Of cat gp) : ∃ t ts rest, gp.triples = t :: ts ∧
    m.piece.placements.map Placement.triple = t :: rest ∧ rest.Perm ts := by
  have horder := h.triples
  unfold joinOrder at horder
  split at horder
  · cases horder
  · next t ts hgp => exact ⟨t, ts, _, hgp, horder, List.Perm.cons_inv (horder ▸ hgp ▸ h.triples_perm)⟩

/-- The seats of a member are those of its element. -/
theorem seats (h : m.Of cat gp) : Seats cat (.pattern gp) m.seats where
  pattern := by
    obtain ⟨t, ts, rest, hgp, horder, hperm⟩ := h.exists_triples
    exact ⟨gp, t, ts, rest, rfl, hgp, m.map_fst_seats.trans horder, hperm⟩
  tables := List.forall_mem_map.2 fun p hp => (h.placed p hp).tableOf?_eq

end Of
end Member

theorem MembersOf.seats {cat : Catalog} {es : List Element} {ms : List Member} (h : MembersOf cat es ms) :
    List.Forall₂ (Seats cat) es (ms.map Member.seats) := by
  rw [List.forall₂_map_right_iff]
  refine h.imp fun e m hm => ?_
  obtain ⟨gp, rfl, hof⟩ := hm
  exact hof.seats

/-- The tables of a statement are those of its members. -/
theorem Compilation.tables_eq {cat : Catalog} {q : Query} {targets : List String}
    {ordering : Option (String × Direction)} {st : Statement} {req opt : List Member}
    (h : Compilation cat q targets ordering st req opt) :
    st.tables.tables = ((req ++ opt).map Member.seats).flatten.map Prod.snd := by
  rw [JoinTree.tables_parts, h.parts_eq, List.flatMap_map, List.map_flatten, List.map_map, ← List.flatMap_def]
  refine List.flatMap_congr fun m hm => ?_
  obtain ⟨gp, -, hof⟩ := h.members.exists_of_mem hm
  exact hof.tables.trans m.map_snd_seats.symm

/-- **No triple pattern is lost and none stands twice.** Whatever the catalog, the tables of a statement that compiles
are, block by block, those of the elements of the query, one for each triple pattern, and all under different aliases. -/
theorem Session.build_leaves {S : Session} {st : Statement} (h : S.build.1 = .ok st) :
    ∃ blocks : List (List (Triple × Table)),
      List.Forall₂ (Seats S.catalog) (S.query.required ++ S.query.optional) blocks ∧
        st.tables.tables = blocks.flatten.map Prod.snd ∧ st.tables.aliases.Nodup := by
  obtain ⟨-, scope, hs⟩ := Session.build_eq_ok h
  obtain ⟨req, opt, hc⟩ := statement_eq_ok hs
  exact ⟨_, hc.members.seats, hc.tables_eq, hc.laidOut.nodup⟩

/-- The two required elements of `friends` have two tables each, the second pair under new aliases. -/
theorem Session.friends_leaves : ∃ st blocks, friends.build.1 = .ok st ∧
    List.Forall₂ (Seats friends.catalog) (friends.query.required ++ friends.query.optional) blocks ∧
      st.tables.tables = blocks.flatten.map Prod.snd ∧ st.tables.aliases.Nodup ∧
        st.tables.aliases = ["knows", "likes", "knows_1", "likes_1", "age"] := by
  obtain ⟨st, h⟩ := exists_build_friends
  obtain ⟨blocks, hblocks, htables, hnodup⟩ := build_leaves h
  have haliases := congrArg (fun r => r.toOption.map (·.tables.aliases)) h
  exact ⟨st, blocks, h, hblocks, htables, hnodup, Option.some.inj (haliases.symm.trans (by decide +kernel))⟩

end Compile
end TripleSql
