/-
# Statements are well scoped

Whatever the catalog, a statement that compiles reads no table out of scope (`Session.build_wellScoped`):

* a join, at any depth, reads tables to its left in its own tree and those that it joins,
* `SELECT` and `ORDER BY` read tables of the join tree,
* `WHERE` reads tables of required elements only,
* an optional element is joined on columns of required tables and of its own.

All of it follows from one thing: a condition is grounded in the piece of its element, and the piece knows columns of
its own and, of those before it, columns of required elements only.
-/

import TripleSql.Proofs.Compilations
import TripleSql.Proofs.Matches

namespace TripleSql
namespace Compile

open Pattern Sql

/-- The part holds the tables of the element, one for each triple pattern. -/
def StandsFor (cat : Catalog) (e : Element) (p : Part) : Prop :=
  ∃ (gp : GraphPattern) (ts : List Triple), e = .pattern gp ∧ ts.Perm gp.triples ∧
    ts.map cat.tableOf? = p.tree.tables.map fun t => some t.name

/-- **The join tree is laid out as the query:** a part for each element, those of required elements first and
joined by inner joins, the others by left outer joins, and no alias stands twice. -/
structure LaidOut (cat : Catalog) (q : Query) (t : JoinTree) : Prop where
  parts : List.Forall₂ (StandsFor cat) (q.required ++ q.optional) t.parts
  required : ∀ p ∈ t.parts.take q.required.length, p.kind = .inner
  optional : ∀ p ∈ t.parts.drop q.required.length, p.kind = .leftOuter
  nodup : t.aliases.Nodup

/-- **What a statement reads is in scope.** The first `n` parts of its join tree are those of required elements. -/
structure InScope (n : Nat) (st : Statement) : Prop where
  joins : st.tables.WellScoped
  nested : ∀ p ∈ st.tables.parts, ∀ e ∈ p.tree.conditions, ∀ a ∈ e.aliases, a ∈ p.aliases
  select : ∀ c ∈ st.select, c.tableAlias ∈ st.tables.aliases
  ordering : ∀ o ∈ st.ordering, o.column.tableAlias ∈ st.tables.aliases
  conditions : ∀ e ∈ st.conditions, ∀ a ∈ e.aliases,
    a ∈ st.tables.aliases ∧ a ∈ (st.tables.parts.take n).flatMap Part.aliases
  optional : ∀ p ∈ st.tables.parts.drop n, ∀ e ∈ p.on, ∀ a ∈ e.aliases,
    a ∈ (st.tables.parts.take n).flatMap Part.aliases ++ p.aliases

/-- A placed triple pattern has the table of its predicate. -/
theorem Placement.Of.tableOf?_eq {cat : Catalog} {p : Placement} (h : p.Of cat) :
    cat.tableOf? p.triple = some p.table.name := by
  obtain ⟨predicate, hp, hg⟩ := h.table
  rw [Catalog.tableOf?, hp]
  exact hg

namespace Member.Of

variable {cat : Catalog} {gp : GraphPattern} {m : Member}

/-- The part of a member has the aliases of its piece. -/
theorem part_aliases (h : m.Of cat gp) : m.part.aliases = m.piece.aliases :=
  Piece.aliases_of_tables h.tables

/-- The part of a member stands for its element. -/
theorem standsFor (h : m.Of cat gp) : StandsFor cat (.pattern gp) m.part := by
  refine ⟨gp, _, rfl, h.perm, ?_⟩
  rw [← h.triples, h.tables, List.map_map, List.map_map]
  exact List.map_congr_left fun p hp => (h.placed p hp).tableOf?_eq

/-- The placements of a member are those of the triple patterns, in joining order. -/
theorem triples_perm (h : m.Of cat gp) : (m.piece.placements.map Placement.triple).Perm gp.triples :=
  h.triples ▸ h.perm

/-- A member has a column for each variable of its element, and for no other. -/
theorem mem_vars (h : m.Of cat gp) {v : String} :
    v ∈ (Element.pattern gp).vars ↔ ∃ c, (v, c) ∈ m.piece.columns := by
  rw [Element.vars, Element.triples, ← (h.triples_perm.flatMap_right Triple.vars).mem_iff, List.flatMap_map,
    List.mem_flatMap]
  simp only [Placement.mem_vars, Piece.mem_columns]
  exact ⟨fun ⟨p, hp, c, hc⟩ => ⟨c, p, hp, hc⟩, fun ⟨c, p, hp, hc⟩ => ⟨p, hp, c, hc⟩⟩

end Member.Of

namespace MembersOf

variable {cat : Catalog} {es : List Element} {ms : List Member} {m : Member}

/-- The part of each member has the aliases of its piece. -/
theorem part_aliases (h : MembersOf cat es ms) (hm : m ∈ ms) : m.part.aliases = m.piece.aliases := by
  obtain ⟨gp, -, hof⟩ := h.exists_of_mem hm
  exact hof.part_aliases

/-- The parts together have the aliases of the pieces, in order. -/
theorem flatMap_part_aliases (h : MembersOf cat es ms) :
    (ms.map Member.part).flatMap Part.aliases = aliasesOf ms := by
  rw [List.flatMap_map, aliasesOf]
  exact List.flatMap_congr fun m hm => h.part_aliases hm

/-- The parts stand for the elements, one for one and in order. -/
theorem standsFor (h : MembersOf cat es ms) : List.Forall₂ (StandsFor cat) es (ms.map Member.part) := by
  rw [List.forall₂_map_right_iff]
  refine h.imp fun e m hm => ?_
  obtain ⟨gp, rfl, hof⟩ := hm
  exact hof.standsFor

/-- The variables of elements are those that have columns in their members. -/
theorem mem_vars (h : MembersOf cat es ms) {v : String} :
    v ∈ es.flatMap Element.vars ↔ ∃ c, (v, c) ∈ columnsOf ms := by
  induction h with
  | nil => simp [columnsOf]
  | cons he _ ih =>
    obtain ⟨gp, rfl, hof⟩ := he
    simp only [columnsOf, List.flatMap_cons, List.mem_append, exists_or] at ih ⊢
    rw [hof.mem_vars, ih]

end MembersOf

namespace Compilation

variable {cat : Catalog} {q : Query} {targets : List String} {ordering : Option (String × Direction)}
  {st : Statement} {req opt : List Member} {m : Member}

/-- A statement has a part for each member, those of required elements first. -/
theorem parts_eq (h : Compilation cat q targets ordering st req opt) :
    st.tables.parts = (req ++ opt).map Member.part := by
  obtain ⟨core, -, -, hcore, htables⟩ := h.tree
  rw [htables, JoinTree.parts_foldl_attach, hcore, List.map_append]

/-- The first parts are those of the required elements. -/
theorem take_parts (h : Compilation cat q targets ordering st req opt) :
    st.tables.parts.take q.required.length = req.map Member.part := by
  rw [h.parts_eq, List.map_append, h.required.length_eq, List.take_left' (List.length_map ..)]

/-- The parts after them are those of the optional elements. -/
theorem drop_parts (h : Compilation cat q targets ordering st req opt) :
    st.tables.parts.drop q.required.length = opt.map Member.part := by
  rw [h.parts_eq, List.map_append, h.required.length_eq, List.drop_left' (List.length_map ..)]

/-- The aliases of a statement are those of its members, in order. -/
theorem tables_aliases (h : Compilation cat q targets ordering st req opt) :
    st.tables.aliases = aliasesOf (req ++ opt) := by
  rw [JoinTree.aliases_parts, h.parts_eq, h.members.flatMap_part_aliases]

/-- A column that is looked up is one of a table of the statement. -/
theorem tableAlias_mem (h : Compilation cat q targets ordering st req opt) {v : String} {c : Column}
    (hc : (columnsOf (req ++ opt)).lookup v = some c) : c.tableAlias ∈ st.tables.aliases := by
  rw [h.tables_aliases]
  exact h.members.tableAlias_mem (mem_of_lookup hc)

/-- The column that a variable had before an element is its first one in some required element. -/
theorem exists_lookup_of_base (h : Compilation cat q targets ordering st req opt) (hm : m ∈ req ++ opt)
    {v : String} {c : Column} (hc : m.piece.base.column? v = some c) : ∃ n ∈ req, n.piece.columns.lookup v = some c := by
  have lookup : ∀ {l : List Member}, (({} : Bindings).bindAll (columnsOf l)).column? v = some c →
      ∃ n ∈ l, n.piece.columns.lookup v = some c := by
    intro l hl
    rw [column?_bindAll_empty] at hl
    induction l with
    | nil => cases hl
    | cons n l ih =>
      rw [columnsOf, List.flatMap_cons, List.lookup_append, Option.or_eq_some_iff] at hl
      rcases hl with hl | ⟨-, hl⟩
      · exact ⟨n, List.mem_cons_self .., hl⟩
      · obtain ⟨n', hn', hl'⟩ := ih hl
        exact ⟨n', List.mem_cons_of_mem _ hn', hl'⟩
  rcases List.mem_append.1 hm with hm | hm
  · obtain ⟨l, r, rfl⟩ := List.append_of_mem hm
    obtain ⟨n, hn, hl⟩ := lookup (h.requiredBases rfl ▸ hc)
    exact ⟨n, List.mem_append_left _ hn, hl⟩
  · exact lookup (h.optionalBases m hm ▸ hc)

/-- A variable that is bound after a required element is so by its first column in the required elements. -/
theorem lookup_of_bindings (h : Compilation cat q targets ordering st req opt) (hm : m ∈ req)
    {v : String} {c : Column} (hc : m.piece.bindings.column? v = some c) : (columnsOf req).lookup v = some c := by
  obtain ⟨l, r, rfl⟩ := List.append_of_mem hm
  rw [Piece.bindings, h.requiredBases rfl, Bindings.column?_bindAll, column?_bindAll_empty] at hc
  have hcons : columnsOf (m :: r) = m.piece.columns ++ columnsOf r := rfl
  rw [columnsOf_append, List.lookup_append, hcons, List.lookup_append, ← Option.or_assoc, hc, Option.some_or]

/-- **An element sees tables of required elements only,** before it has tables of its own. -/
theorem base_tableAlias_mem (h : Compilation cat q targets ordering st req opt) (hm : m ∈ req ++ opt)
    {v : String} {c : Column} (hc : m.piece.base.column? v = some c) : c.tableAlias ∈ aliasesOf req := by
  obtain ⟨n, hn, hl⟩ := h.exists_lookup_of_base hm hc
  exact h.required.tableAlias_mem (List.mem_flatMap.2 ⟨n, hn, mem_of_lookup hl⟩)

/-- What is grounded in an element reads tables of required elements and its own. -/
theorem aliases_subset (h : Compilation cat q targets ordering st req opt) (hm : m ∈ req ++ opt)
    {e : Condition} (he : m.piece.Grounds e) : ∀ a ∈ e.aliases, a ∈ aliasesOf req ++ m.piece.aliases :=
  Piece.Grounds.aliases_subset (h.members.placed hm) (h.base_tableAlias_mem hm) he

/-- **`WHERE` reads tables of required elements only.** -/
theorem conditions_aliases_subset (h : Compilation cat q targets ordering st req opt) :
    ∀ e ∈ st.conditions, ∀ a ∈ e.aliases, a ∈ aliasesOf req := by
  intro e he a ha
  obtain ⟨m, hm, hg⟩ := h.grounds e he
  rcases List.mem_append.1 (h.aliases_subset (List.mem_append_left _ hm) hg a ha) with ha | ha
  · exact ha
  · exact List.mem_flatMap.2 ⟨m, hm, ha⟩

/-- Every condition of a statement is grounded in an element. -/
theorem exists_grounds (h : Compilation cat q targets ordering st req opt) {e : Condition}
    (he : e ∈ st.tables.conditions ++ st.conditions) : ∃ m ∈ req ++ opt, m.piece.Grounds e := by
  rcases List.mem_append.1 he with he | he
  · rw [JoinTree.conditions_parts, h.parts_eq, List.flatMap_map] at he
    obtain ⟨m, hm, he⟩ := List.mem_flatMap.1 he
    obtain ⟨gp, -, hof⟩ := h.members.exists_of_mem hm
    exact ⟨m, hm, hof.grounds e he⟩
  · obtain ⟨m, hm, hg⟩ := h.grounds e he
    exact ⟨m, List.mem_append_left _ hm, hg⟩

/-- The conditions that apply to an element are among those of the statement. -/
theorem conditions_subset (h : Compilation cat q targets ordering st req opt) (hm : m ∈ req ++ opt) :
    ∀ e ∈ m.part.conditions ++ st.conditions, e ∈ st.tables.conditions ++ st.conditions := by
  intro e he
  refine (List.mem_append.1 he).elim (fun he => List.mem_append_left _ ?_) (List.mem_append_right _)
  rw [JoinTree.conditions_parts, h.parts_eq, List.flatMap_map]
  exact List.mem_flatMap.2 ⟨m, hm, he⟩

/-- An element is enforced by the conditions that apply to it. -/
theorem enforced (h : Compilation cat q targets ordering st req opt) (hm : m ∈ req ++ opt) :
    m.piece.Enforced (m.part.conditions ++ st.conditions) := by
  rcases List.mem_append.1 hm with hm | hm
  · exact h.requiredEnforced m hm
  · exact (h.optionalEnforced m hm).mono fun hh => hh.mono fun e he => List.mem_append_left _ he

/-- **What compiles is laid out as its query.** -/
theorem laidOut (h : Compilation cat q targets ordering st req opt) : LaidOut cat q st.tables where
  parts := h.parts_eq ▸ h.members.standsFor
  required := by
    rw [h.take_parts]
    exact List.forall_mem_map.2 h.requiredKinds
  optional := by
    rw [h.drop_parts]
    exact List.forall_mem_map.2 h.optionalKinds
  nodup := h.tables_aliases ▸ h.nodup

/-- **What compiles reads no table out of scope.** -/
theorem inScope (h : Compilation cat q targets ordering st req opt) :
    InScope q.required.length st where
  joins := h.wellScoped
  nested := by
    rw [h.parts_eq]
    refine List.forall_mem_map.2 fun m hm => ?_
    obtain ⟨gp, -, hof⟩ := h.members.exists_of_mem hm
    exact JoinTree.WellScoped.aliases_subset hof.wellScoped
  select c hc := by
    obtain ⟨v, -, hv⟩ := exists_left_of_forall₂ h.select hc
    exact h.tableAlias_mem hv
  ordering o ho := by
    obtain ⟨v, hv⟩ := h.ordering o ho
    exact h.tableAlias_mem hv
  conditions e he a ha := by
    have haliases := h.conditions_aliases_subset e he a ha
    rw [h.take_parts, h.required.flatMap_part_aliases, h.tables_aliases, aliasesOf_append]
    exact ⟨List.mem_append_left _ haliases, haliases⟩
  optional := by
    rw [h.take_parts, h.drop_parts, h.required.flatMap_part_aliases]
    refine List.forall_mem_map.2 fun m hm e he => ?_
    obtain ⟨gp, -, hof⟩ := h.optional.exists_of_mem hm
    rw [hof.part_aliases]
    exact h.aliases_subset (List.mem_append_right _ hm) (hof.grounds e (List.mem_append_right _ he))

end Compilation

/-- **A statement that compiles is well scoped,** whatever the catalog, the query and the targets. -/
theorem Session.build_wellScoped {S : Session} {st : Statement} (h : S.build.1 = .ok st) :
    LaidOut S.catalog S.query st.tables ∧ InScope S.query.required.length st := by
  obtain ⟨-, s, hs⟩ := Session.build_eq_ok h
  obtain ⟨req, opt, hc⟩ := statement_eq_ok hs
  exact ⟨hc.laidOut, hc.inScope⟩

/-- Who knows and likes whom, with an age where it is known. -/
def Session.friends : Session where
  catalog := { predicates := .ofPairs [("<knows>", "knows"), ("<likes>", "likes"), ("<age>", "age")] }
  query :=
    { required :=
        [.pattern ⟨[⟨.var "x", .const "<knows>", .var "y"⟩, ⟨.var "y", .const "<likes>", .const "tea"⟩],
          [⟨.var "x", "<", .var "y"⟩]⟩,
         .pattern ⟨[⟨.var "z", .const "<knows>", .const "Ada"⟩, ⟨.var "x", .const "<likes>", .var "z"⟩], []⟩]
      optional := [.pattern ⟨[⟨.var "x", .const "<age>", .var "a"⟩], [⟨.var "a", "<>", .var "y"⟩]⟩] }
  targets := ["x", "a"]

/-- A build that has a statement succeeds with it. -/
theorem Session.exists_build {S : Session} (hsome : S.build.1.toOption.isSome = true) :
    ∃ st, S.build.1 = .ok st := by
  cases h : S.build.1 with
  | ok st => exact ⟨st, rfl⟩
  | error e =>
    rw [h] at hsome
    cases hsome

/-- What is read off what a session builds is read off its statement. -/
theorem Session.eq_of_build {α : Type} {S : Session} {st : Statement} (h : S.build.1 = .ok st) (f : Statement → α)
    {a : α} (hf : S.build.1.toOption.map f = some a) : f st = a := by
  rw [h] at hf
  exact Option.some.inj hf

/-- The session `friends` builds a statement. -/
theorem Session.exists_build_friends : ∃ st, friends.build.1 = .ok st := exists_build (by decide +kernel)

/-- The statement of `friends` has two required parts and no column out of scope. -/
theorem Session.friends_wellScoped : ∃ st, friends.build.1 = .ok st ∧
    LaidOut friends.catalog friends.query st.tables ∧ InScope 2 st := by
  obtain ⟨st, h⟩ := exists_build_friends
  exact ⟨st, h, build_wellScoped h⟩

end Compile
end TripleSql
