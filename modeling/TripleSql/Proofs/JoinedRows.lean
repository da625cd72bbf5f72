/-
# The rows of join trees

* **Inner joins.** The rows of a well scoped tree of inner joins are those of the cross product of its tables that
  satisfy all of its conditions, wherever in the tree they stand (`JoinTree.rows_of_isInner`).
* **Left outer joins.** Trees that are joined one after the other by left outer joins, each on columns of its own and of
  the tree at the front, do not see each other: every row of the front is paired with a selection of one match for
  each of them, or with nothing where there is no match (`JoinTree.rows_foldl_attach`).
-/

import TripleSql.Proofs.Evaluation

namespace TripleSql
namespace Sql

open Condition

variable {ops : Operators} {db : Database}

/-- A join of two restricted cross products is the cross product of all, restricted by all conditions. -/
theorem bind_filter_crossRows {ts us : List Table} {cs ds on : List Condition}
    (hcs : ∀ c ∈ cs, ∀ a ∈ c.aliases, a ∉ us.map (·.aliasName))
    (hds : ∀ c ∈ ds, ∀ a ∈ c.aliases, a ∉ ts.map (·.aliasName)) :
    ((crossRows db ts).filter (AllHold ops cs)).bind (fun e =>
        (((crossRows db us).filter (AllHold ops ds)).map e.merge).filter (AllHold ops on)) =
      (crossRows db (ts ++ us)).filter (AllHold ops (cs ++ ds ++ on)) := by
  rw [Multiset.bind_filter, crossRows_append, Multiset.filter_bind]
  refine Multiset.bind_congr fun e he => ?_
  have hall : ∀ f ∈ crossRows db us, AllHold ops (cs ++ ds ++ on) (e.merge f) ↔
      AllHold ops cs e ∧ AllHold ops on (e.merge f) ∧ AllHold ops ds f := fun f hf => by
    rw [allHold_append, allHold_append, allHold_merge_left (within_of_mem_crossRows hf) hcs,
      allHold_merge_right (within_of_mem_crossRows he) hds, and_assoc, and_comm (a := AllHold ops ds f)]
  rw [Multiset.filter_map, Multiset.filter_map, Multiset.filter_filter]
  split
  · next hc => exact congrArg _ (Multiset.filter_congr fun f hf =>
      ((hall f hf).trans (and_iff_right hc)).symm)
  · next hc =>
    refine (Multiset.map_eq_zero.2 (Multiset.filter_eq_nil.2 fun f hf hm => ?_)).symm
    exact hc ((hall f hf).1 hm).1

mutual

/-- A source without left outer joins has the rows of a cross join that its conditions hold of, by induction on how
deep it is nested. -/
theorem Source.rows_of_isInner : (s : Source) → s.IsInner → s.WellScoped → s.aliases.Nodup →
    s.rows ops db = (crossRows db s.tables).filter (AllHold ops s.conditions)
  | .table t, _, _, _ => by
    rw [Source.rows, Source.tables, crossRows_singleton, Source.conditions]
    exact (Multiset.filter_eq_self.2 fun e _ => List.forall_mem_nil _).symm
  | .nested tree, hi, hw, hn => JoinTree.rows_of_isInner tree hi hw hn

/-- **A tree of inner joins** has the rows of the cross product of its tables that satisfy all of its conditions. -/
theorem JoinTree.rows_of_isInner : (t : JoinTree) → t.IsInner → t.WellScoped → t.aliases.Nodup →
    t.rows ops db = (crossRows db t.tables).filter (AllHold ops t.conditions)
  | .base s, hi, hw, hn => Source.rows_of_isInner s hi hw hn
  | .join l kind r on, ⟨hl, hk, hr⟩, ⟨hwl, hwr, _⟩, hn => by
    subst hk
    rw [JoinTree.aliases_join] at hn
    have hnl := (List.nodup_append.1 hn).1
    have hnr := (List.nodup_append.1 hn).2.1
    have hdisjoint : l.aliases.Disjoint r.aliases := List.disjoint_of_nodup_append hn
    rw [JoinTree.rows, Source.rows_of_isInner r hr hwr hnr, JoinTree.rows_of_isInner l hl hwl hnl]
    refine bind_filter_crossRows (fun c hc a ha har => ?_) fun c hc a ha hal => ?_
    · exact hdisjoint (hwl.aliases_subset c hc a ha) har
    · exact hdisjoint hal (hwr.aliases_subset c hc a ha)

end

/-- The rows of a part that match a row, or nothing where none does. -/
def Part.answers (ops : Operators) (db : Database) (p : Part) (e : Row) : Multiset Row :=
  padded Row.empty ((crossRows db p.tree.tables).filter fun f => AllHold ops p.conditions (e.merge f))

/-- The part is joined by a left outer join, on columns of its own and of tables under the aliases. -/
structure Part.IsOptional (as : List String) (p : Part) : Prop where
  kind : p.kind = .leftOuter
  inner : p.tree.IsInner
  wellScoped : p.tree.WellScoped
  on : ∀ c ∈ p.on, ∀ a ∈ c.aliases, a ∈ as ++ p.aliases

/-- The answers of a part say nothing of other tables. -/
theorem Part.within_of_mem_answers {p : Part} {e f : Row} (h : f ∈ p.answers ops db e) : f.Within p.aliases := by
  rw [Part.answers, padded] at h
  split at h
  · obtain rfl := Multiset.mem_singleton.1 h
    exact fun _ _ => rfl
  · exact within_of_mem_crossRows (Multiset.mem_filter.1 h).1

/-- Each answer in a selection says nothing of the tables of other parts. -/
theorem forall₂_within_of_mem_selections {ps : List Part} {e : Row} {fs : List Row}
    (h : fs ∈ selections (ps.map fun p => p.answers ops db e)) :
    List.Forall₂ (fun f p => f.Within p.aliases) fs ps := by
  rw [mem_selections, List.forall₂_map_right_iff] at h
  exact h.imp fun f p => Part.within_of_mem_answers

/-- **One left outer join.** A row at the front, with whatever stands under other aliases beside it, is paired with the
answers to it. -/
theorem complete_leftOuter {p : Part} {as bs : List String} (hp : p.IsOptional as) {e g : Row} (he : e.Within as)
    (hg : g.Within bs) (hnodup : (as ++ bs ++ p.aliases).Nodup) :
    JoinKind.leftOuter.complete (e.merge g)
        (((p.tree.rows ops db).map (e.merge g).merge).filter (AllHold ops p.on)) =
      (p.answers ops db e).map (e.merge g).merge := by
  have hfront : (as ++ bs).Nodup := (List.nodup_append.1 hnodup).1
  have hown : p.tree.aliases.Nodup := (List.nodup_append.1 hnodup).2.1
  have hdisjoint : (as ++ bs).Disjoint p.aliases := List.disjoint_of_nodup_append hnodup
  have hbs : as.Disjoint bs := List.disjoint_of_nodup_append hfront
  rw [JoinTree.rows_of_isInner p.tree hp.inner hp.wellScoped hown, Multiset.filter_map,
    Multiset.filter_filter, JoinKind.complete, Part.answers, map_padded, Row.merge_empty]
  refine congrArg (padded _) (congrArg _ (Multiset.filter_congr fun f hf => ?_))
  have hf := within_of_mem_crossRows hf
  -- Conditions inside the part see `f` alone, those that it is joined on see `e` and `f`.
  have hinside : AllHold ops p.tree.conditions (e.merge f) ↔ AllHold ops p.tree.conditions f :=
    allHold_merge_right he fun c hc a ha hae =>
      hdisjoint (List.mem_append_left _ hae) (hp.wellScoped.aliases_subset c hc a ha)
  have hon : AllHold ops p.on ((e.merge g).merge f) ↔ AllHold ops p.on (e.merge f) := by
    refine allHold_congr fun c hc d hd => ?_
    by_cases hdp : d.tableAlias ∈ p.aliases
    · rw [Row.merge_right (he.merge hg) fun ha => hdisjoint ha hdp,
        Row.merge_right he fun ha => hdisjoint (List.mem_append_left _ ha) hdp]
    · have hda := (List.mem_append.1 (hp.on c hc _ hd)).resolve_right hdp
      rw [Row.merge_left hf hdp, Row.merge_left hf hdp, Row.merge_left hg fun hb => hbs hda hb]
  rw [Part.conditions, allHold_append, hinside, Function.comp_apply, hon, and_comm]

/-- **Left outer joins in a row do not see each other.** -/
theorem JoinTree.rows_foldl_attach {core : JoinTree} (hi : core.IsInner) (hw : core.WellScoped) {ps : List Part}
    (hps : ∀ p ∈ ps, p.IsOptional core.aliases) (hn : (core.aliases ++ ps.flatMap Part.aliases).Nodup) :
    (ps.foldl attach core).rows ops db = (core.rows ops db).bind fun e =>
      (selections (ps.map fun p => p.answers ops db e)).map fun fs => e.merge (Row.mergeAll fs) := by
  induction ps using List.reverseRecOn with
  | nil =>
    simp only [List.foldl_nil, List.map_nil, selections, Multiset.map_singleton, Row.mergeAll, List.foldr_nil,
      Row.merge_empty]
    exact ((Multiset.bind_singleton _ id).trans (Multiset.map_id _)).symm
  | append_singleton ps p ih =>
    have hp := hps p (List.mem_append_right _ (List.mem_singleton_self p))
    have hbefore : ∀ q ∈ ps, q.IsOptional core.aliases := fun q hq => hps q (List.mem_append_left _ hq)
    rw [List.flatMap_append, List.flatMap_singleton, ← List.append_assoc] at hn
    have hfront : (core.aliases ++ ps.flatMap Part.aliases).Nodup := (List.nodup_append.1 hn).1
    have hcore : core.aliases.Nodup := (List.nodup_append.1 hfront).1
    rw [List.foldl_append, List.foldl_cons, List.foldl_nil, attach, JoinTree.rows, Source.rows, hp.kind,
      ih hbefore hfront, Multiset.bind_assoc]
    refine Multiset.bind_congr fun e he => ?_
    rw [JoinTree.rows_of_isInner core hi hw hcore] at he
    have he := within_of_mem_crossRows (Multiset.mem_filter.1 he).1
    rw [Multiset.bind_map, List.map_append, selections_append, Multiset.map_bind]
    refine Multiset.bind_congr fun fs hfs => ?_
    have hwithin : (Row.mergeAll fs).Within (ps.flatMap Part.aliases) :=
      Row.within_mergeAll (forall₂_within_of_mem_selections hfs)
    rw [complete_leftOuter hp he hwithin hn, List.map_singleton, selections_singleton, Multiset.map_map,
      Multiset.map_map]
    refine Multiset.map_congr rfl fun f _ => ?_
    rw [Row.merge_assoc, Function.comp_apply, Function.comp_apply, Row.mergeAll_append]
    exact congrArg e.merge (congrArg _ (Row.merge_empty f).symm)

/-- **The joined rows of a statement** whose optional parts are joined last and whose `WHERE` reads what stands before
them: every row that the front, its conditions and `WHERE` leave is paired with a selection of answers. -/
theorem Statement.joined_eq {st : Statement} {core : JoinTree} {ps : List Part}
    (htables : st.tables = ps.foldl JoinTree.attach core) (hi : core.IsInner) (hw : core.WellScoped)
    (hps : ∀ p ∈ ps, p.IsOptional core.aliases) (hn : (core.aliases ++ ps.flatMap Part.aliases).Nodup)
    (hwhere : ∀ c ∈ st.conditions, ∀ a ∈ c.aliases, a ∈ core.aliases) :
    st.joined ops db =
      ((crossRows db core.tables).filter (AllHold ops (core.conditions ++ st.conditions))).bind fun e =>
        (selections (ps.map fun p => p.answers ops db e)).map fun fs => e.merge (Row.mergeAll fs) := by
  have hcore : core.aliases.Nodup := (List.nodup_append.1 hn).1
  have hdisjoint : core.aliases.Disjoint (ps.flatMap Part.aliases) := List.disjoint_of_nodup_append hn
  rw [joined, htables, JoinTree.rows_foldl_attach hi hw hps hn, Multiset.filter_bind,
    JoinTree.rows_of_isInner core hi hw hcore, Multiset.bind_filter, Multiset.bind_filter]
  refine Multiset.bind_congr fun e _ => ?_
  -- Whatever answers stand beside the front, `WHERE` does not see them.
  have hwhere' : ∀ fs ∈ selections (ps.map fun p => p.answers ops db e),
      (AllHold ops st.conditions (e.merge (Row.mergeAll fs)) ↔ AllHold ops st.conditions e) := by
    intro fs hfs
    have hwithin : (Row.mergeAll fs).Within (ps.flatMap Part.aliases) :=
      Row.within_mergeAll (forall₂_within_of_mem_selections hfs)
    exact allHold_merge_left hwithin fun c hc a ha hb => hdisjoint (hwhere c hc a ha) hb
  by_cases hcore : AllHold ops core.conditions e
  · by_cases hw : AllHold ops st.conditions e
    · rw [if_pos hcore, if_pos (allHold_append.2 ⟨hcore, hw⟩), Multiset.filter_map]
      exact congrArg _ (Multiset.filter_eq_self.2 fun fs hfs => (hwhere' fs hfs).2 hw)
    · rw [if_pos hcore, if_neg fun h => hw (allHold_append.1 h).2, Multiset.filter_map]
      exact congrArg _ (Multiset.filter_eq_nil.2 fun fs hfs h => hw ((hwhere' fs hfs).1 h))
  · rw [if_neg hcore, if_neg fun h => hcore (allHold_append.1 h).1]

end Sql
end TripleSql
