/-
# Variables written twice in a triple pattern

A triple pattern `?x p ?x` asks for rows whose two columns are equal. No condition says so for it; the equality has to
come from the other conditions on its columns. `Session.build_entails_iff` says when it does:

| the triple pattern is | `?x` has a column before the element | the two columns are equal |
| --- | --- | --- |
| not the first one of its graph pattern | – | yes |
| the first one of its graph pattern | yes | yes |
| the first one of its graph pattern | no | no, whatever conditions of the statement are taken together |

In the last case no condition reads the object column at all, so `?x p ?x` alone selects every row of its table
(`Session.loops_not_entails`).
-/

import Mathlib.Logic.Relation
import TripleSql.Proofs.Scoping

namespace TripleSql

/-- The variables of the required elements that are joined before an element. -/
def Pattern.Query.known (q : Query) (i : Nat) : List String := (q.required.take i).flatMap Element.vars

namespace Sql

/-- The equalities among the conditions make the columns equal, by symmetry and transitivity. -/
def Entails (cs : List Condition) : Column → Column → Prop :=
  Relation.EqvGen fun c d => Condition.columnsEqual c d ∈ cs

namespace Entails

variable {cs ds : List Condition} {c d : Column}

/-- More conditions make equal what fewer do. -/
theorem mono (h : Entails cs c d) (hs : ∀ e ∈ cs, e ∈ ds) : Entails ds c d :=
  Relation.EqvGen.mono (fun _ _ he => hs _ he) _ _ h

/-- An equality makes its columns equal on whichever side they stand. -/
theorem of_has (h : Condition.Has cs (Condition.columnsEqual c d)) : Entails cs c d := by
  obtain ⟨e, he, heq⟩ := h
  rcases Condition.isEquivalent_iff.1 heq with rfl | ⟨ho, -, hl, hr⟩
  · exact .rel _ _ he
  · have hswap : e = Condition.columnsEqual d c := by
      rcases e with ⟨l, o, r⟩
      subst ho hl hr
      rfl
    exact .symm _ _ (.rel _ _ (hswap ▸ he))

/-- What takes one value on the two sides of every equality takes one value on columns that are made equal. -/
theorem agree {α : Sort*} {f : Column → α} (h : Entails cs c d)
    (hf : ∀ a b, Condition.columnsEqual a b ∈ cs → f a = f b) : f c = f d := by
  induction h with
  | rel a b hab => exact hf a b hab
  | refl a => rfl
  | symm a b _ ih => exact ih.symm
  | trans a b c _ _ ih₁ ih₂ => exact ih₁.trans ih₂

/-- A column that no condition reads is made equal to no other one. -/
theorem eq_of_not_read (h : Entails cs c d)
    (hd : ∀ e ∈ cs, e.left ≠ .column d ∧ e.right ≠ .column d) : c = d := by
  refine (h.agree (f := fun a => a = d) fun a b hab => ?_).mpr rfl
  obtain ⟨ha, hb⟩ := hd _ hab
  rw [eq_false fun he : a = d => ha (congrArg _ he), eq_false fun he : b = d => hb (congrArg _ he)]

end Entails
end Sql

namespace Compile

open Pattern Sql

/-- **The columns of a variable in a piece are made equal,** those apart that escape. -/
theorem Piece.Enforced.entails {x : Piece} {cs : List Condition} (h : x.Enforced cs) {v : String}
    {c d : Sql.Column} (hc : (v, c) ∈ x.columns) (hd : (v, d) ∈ x.columns) (hlc : ¬ x.Loose v c) (hld : ¬ x.Loose v d) :
    Entails cs c d := by
  have toBinding : ∀ {c b}, x.bindings.column? v = some b →
      (∃ b', x.bindings.column? v = some b' ∧ (b' = c ∨ Condition.Has cs (Condition.columnsEqual c b'))) →
        Entails cs c b := by
    rintro c b hb ⟨b', hb', hcb⟩
    obtain rfl : b = b' := Option.some.inj (hb.symm.trans hb')
    rcases hcb with rfl | hcb
    · exact .refl _
    · exact .of_has hcb
  obtain ⟨b, hb⟩ := Option.isSome_iff_exists.1 (isSome_bindings_of_mem hc)
  exact .trans _ _ _ (toBinding hb (h.columns hc hlc)) (.symm _ _ (toBinding hb (h.columns hd hld)))

/-- The variable stands on both columns of the placement. -/
structure Placement.Repeats (p : Placement) (v : String) : Prop where
  subject : p.triple.subject = .var v
  object : p.triple.object = .var v

namespace Placement.Repeats

variable {p : Placement} {v w : String} {c : Column}

/-- The subject column is one of the repeated variable. -/
theorem mem_subject (h : p.Repeats v) : (v, p.subject) ∈ p.columns :=
  mem_columns.2 (mem_slots.2 (.inl (by rw [h.subject])))

/-- The object column is one of the repeated variable. -/
theorem mem_object (h : p.Repeats v) : (v, p.object) ∈ p.columns :=
  mem_columns.2 (mem_slots.2 (.inr (by rw [h.object])))

/-- The variable stands for the subject column, which comes first. -/
theorem column?_eq (h : p.Repeats v) : p.column? v = some p.subject := by
  simp [column?, columns, slots, h.subject, Node.var?]

/-- No other variable has a column of the placement. -/
theorem eq_of_mem_columns (h : p.Repeats v) (hc : (w, c) ∈ p.columns) : w = v := by
  rcases mem_slots.1 (mem_columns.1 hc) with hc | hc
  · rw [h.subject] at hc
    cases hc
    rfl
  · rw [h.object] at hc
    cases hc
    rfl

/-- No node of the placement is a constant. -/
theorem not_mem_slots (h : p.Repeats v) {a : String} : (.const a, c) ∉ p.slots := fun hc => by
  rcases mem_slots.1 hc with hc | hc
  · rw [h.subject] at hc
    cases hc
  · rw [h.object] at hc
    cases hc

end Placement.Repeats

namespace Compilation

variable {cat : Catalog} {q : Query} {targets : List String} {ordering : Option (String × Direction)}
  {st : Statement} {req opt : List Member} {m n : Member} {p p' : Placement} {v w : String} {c : Column}

/-- A column tells the placement that it stands in. -/
theorem placement_eq_of_columns (h : Compilation cat q targets ordering st req opt) (hm : m ∈ req ++ opt)
    (hp : p ∈ m.piece.placements) (hn : n ∈ req ++ opt) (hp' : p' ∈ n.piece.placements) {s s' : Node × Column}
    (hs : s ∈ p.slots) (hs' : s' ∈ p'.slots) (hc : s.2 = s'.2) : p = p' := by
  refine h.placement_ext (mem_placementsOf.2 ⟨m, hm, hp⟩) (mem_placementsOf.2 ⟨n, hn, hp'⟩) ?_
  rw [← (h.members.placed hm p hp).tableAlias_eq hs, hc, (h.members.placed hn p' hp').tableAlias_eq hs']

/-- **One column of a repeated variable escapes:** the object column in the first placement, where the variable had no
column before. -/
theorem loose_iff (h : Compilation cat q targets ordering st req opt) (hm : m ∈ req ++ opt)
    (hp : p ∈ m.piece.placements) (hr : p.Repeats v) (hne : p.subject ≠ p.object) :
    m.piece.Loose v p.object ↔ p = m.piece.first ∧ m.piece.base.column? v = none := by
  constructor
  · rintro ⟨hb, hc, -⟩
    exact ⟨h.placement_eq_of_columns hm hp hm (List.mem_cons_self ..) (Placement.mem_columns.1 hr.mem_object)
      (Placement.mem_columns.1 hc) rfl, hb⟩
  · rintro ⟨rfl, hb⟩
    refine ⟨hb, hr.mem_object, fun hc => hne ?_⟩
    exact Option.some.inj (hr.column?_eq.symm.trans hc)

/-- The subject column does not escape: the variable is bound to it or to one before it. -/
theorem not_loose_subject (h : Compilation cat q targets ordering st req opt) (hm : m ∈ req ++ opt)
    (hp : p ∈ m.piece.placements) (hr : p.Repeats v) : ¬ m.piece.Loose v p.subject := by
  rintro ⟨-, hc, hne⟩
  obtain rfl : p = m.piece.first := h.placement_eq_of_columns hm hp hm (List.mem_cons_self ..)
    (Placement.mem_columns.1 hr.mem_subject) (Placement.mem_columns.1 hc) rfl
  exact hne hr.column?_eq

/-- **The column that escapes stands for no variable in any element.** -/
theorem not_column_of_loose (h : Compilation cat q targets ordering st req opt) (hm : m ∈ req ++ opt)
    (hr : m.piece.first.Repeats v) (hl : m.piece.Loose v m.piece.first.object) (hn : n ∈ req ++ opt) :
    ¬ n.piece.Column w m.piece.first.object := by
  obtain ⟨hb, -, hne⟩ := hl
  have hfirst : m.piece.first ∈ m.piece.placements := List.mem_cons_self ..
  -- Whichever member has the column in a placement is this one, and the placement is its first one.
  have owner : ∀ {n w p}, n ∈ req ++ opt → p ∈ n.piece.placements → (w, m.piece.first.object) ∈ p.columns →
      n = m ∧ p = m.piece.first ∧ w = v := by
    intro n w p hn hp hc
    obtain rfl : p = m.piece.first := h.placement_eq_of_columns hn hp hm hfirst (Placement.mem_columns.1 hc)
      (Placement.mem_columns.1 hr.mem_object) rfl
    exact ⟨h.member_ext hn hm hp hfirst, rfl, hr.eq_of_mem_columns hc⟩
  rintro (hc | hc | ⟨p, hp, hc⟩ | ⟨hs, hc⟩)
  · obtain ⟨n', hn', hl⟩ := h.exists_lookup_of_base hn hc
    obtain ⟨p, hp, hpc⟩ := Piece.mem_columns.1 (mem_of_lookup hl)
    obtain ⟨rfl, -, rfl⟩ := owner (List.mem_append_left _ hn') hp hpc
    have hlookup : n'.piece.first.columns.lookup w = some n'.piece.first.subject := hr.column?_eq
    rw [Piece.columns, Piece.placements, List.flatMap_cons, List.lookup_append, hlookup, Option.some_or] at hl
    exact hne (hr.column?_eq.trans hl)
  · obtain ⟨rfl, -, rfl⟩ := owner hn (List.mem_cons_self ..) (Placement.mem_columns_of_column? hc)
    exact hne hc
  · obtain ⟨rfl, rfl, -⟩ := owner hn (List.mem_cons_of_mem _ hp) hc
    exact h.first_not_mem_rest hn hp
  · obtain ⟨rfl, -, rfl⟩ := owner hn (List.mem_cons_self ..) hc
    rw [hb] at hs
    cases hs

/-- **No condition reads the column that escapes.** -/
theorem not_read_of_loose (h : Compilation cat q targets ordering st req opt) (hm : m ∈ req ++ opt)
    (hr : m.piece.first.Repeats v) (hl : m.piece.Loose v m.piece.first.object) :
    ∀ e ∈ st.tables.conditions ++ st.conditions,
      e.left ≠ .column m.piece.first.object ∧ e.right ≠ .column m.piece.first.object := by
  intro e he
  obtain ⟨n, hn, hg⟩ := h.exists_grounds he
  refine not_or.1 fun hread => ?_
  rcases Grounded.reads hg hread with ⟨w, hw⟩ | ⟨a, p, hp, hs⟩
  · exact h.not_column_of_loose hm hr hl hn hw
  · obtain rfl : p = m.piece.first := h.placement_eq_of_columns hn hp hm (List.mem_cons_self ..) hs
      (Placement.mem_columns.1 hr.mem_object) rfl
    exact hr.not_mem_slots hs

/-- **When the two columns of a repeated variable are made equal,** by the conditions that apply to the element or by
all conditions of the statement. -/
theorem entails_iff (h : Compilation cat q targets ordering st req opt) (hm : m ∈ req ++ opt)
    (hp : p ∈ m.piece.placements) (hr : p.Repeats v) (hne : p.subject ≠ p.object) {cs : List Condition}
    (hlocal : ∀ e ∈ m.part.conditions ++ st.conditions, e ∈ cs)
    (hall : ∀ e ∈ cs, e ∈ st.tables.conditions ++ st.conditions) :
    Entails cs p.subject p.object ↔ ¬ (p = m.piece.first ∧ m.piece.base.column? v = none) := by
  rw [← h.loose_iff hm hp hr hne]
  constructor
  · intro hent hl
    obtain rfl := ((h.loose_iff hm hp hr hne).1 hl).1
    exact hne (hent.eq_of_not_read fun e he => h.not_read_of_loose hm hr hl e (hall e he))
  · intro hl
    exact ((h.enforced hm).entails (Piece.mem_columns.2 ⟨p, hp, hr.mem_subject⟩)
      (Piece.mem_columns.2 ⟨p, hp, hr.mem_object⟩) (h.not_loose_subject hm hp hr) hl).mono hlocal

/-- What an element knows are the columns of the required elements before it. -/
theorem base_eq (h : Compilation cat q targets ordering st req opt) {i : Nat} (hm : (req ++ opt)[i]? = some m) :
    m.piece.base = ({} : Bindings).bindAll (columnsOf (req.take i)) := by
  by_cases hlt : i < req.length
  · rw [List.getElem?_append_left hlt] at hm
    refine h.requiredBases (r := req.drop (i + 1)) ?_
    rw [← (List.getElem?_eq_some_iff.1 hm).2, List.getElem_cons_drop, List.take_append_drop]
  · rw [List.getElem?_append_right (by omega)] at hm
    rw [List.take_of_length_le (by omega)]
    exact h.optionalBases m (List.mem_of_getElem? hm)

/-- The variables with a column before an element are those of the required elements before it. -/
theorem mem_base_vars (h : Compilation cat q targets ordering st req opt) {i : Nat}
    (hm : (req ++ opt)[i]? = some m) : v ∈ m.piece.base.vars ↔ v ∈ q.known i := by
  rw [h.base_eq hm, Bindings.mem_vars_bindAll, Query.known, MembersOf.mem_vars (List.forall₂_take i h.required)]
  exact or_iff_right List.not_mem_nil

/-- What stands for the `i`-th element, and what is known before it. -/
theorem exists_member (h : Compilation cat q targets ordering st req opt) {i : Nat} {gp : GraphPattern}
    (hi : (q.required ++ q.optional)[i]? = some (.pattern gp)) :
    ∃ m, (req ++ opt)[i]? = some m ∧ m.Of cat gp ∧ ∀ v, v ∈ m.piece.base.vars ↔ v ∈ q.known i := by
  obtain ⟨m, hm, _, he, hof⟩ := exists_getElem?_of_forall₂ h.members hi
  obtain rfl := Element.pattern.inj he
  exact ⟨m, hm, hof, fun _ => h.mem_base_vars hm⟩

end Compilation

/-- **When a variable that is written twice in a triple pattern makes its two columns equal.** Over an admitted catalog,
take the triple pattern that is the `j`-th one to be joined of the `i`-th element. The conditions that apply to its
table make the two columns equal unless it is the first one of its graph pattern and the variable has no column before
the element; in that case even all conditions of the statement do not. -/
theorem Session.build_entails_iff {S : Session} {st : Statement} (hcat : S.catalog.check = .ok ())
    (h : S.build.1 = .ok st) {i j : Nat} {gp : GraphPattern} {t : Triple} {v : String}
    (hi : (S.query.required ++ S.query.optional)[i]? = some (.pattern gp))
    (hj : (joinOrder (S.query.known i) gp)[j]? = some t)
    (hs : t.subject = .var v) (ho : t.object = .var v) :
    (joinOrder (S.query.known i) gp).Perm gp.triples ∧
      ∃ p table, st.tables.parts[i]? = some p ∧ p.tree.tables[j]? = some table ∧
        S.catalog.tableOf? t = some table.name ∧
        (Entails (p.conditions ++ st.conditions) ⟨table.aliasName, S.catalog.subjectColumn⟩
            ⟨table.aliasName, S.catalog.objectColumn⟩ ↔ ¬ (j = 0 ∧ v ∉ S.query.known i)) ∧
        (Entails (st.tables.conditions ++ st.conditions) ⟨table.aliasName, S.catalog.subjectColumn⟩
            ⟨table.aliasName, S.catalog.objectColumn⟩ ↔ ¬ (j = 0 ∧ v ∉ S.query.known i)) := by
  obtain ⟨-, s, hstmt⟩ := Session.build_eq_ok h
  obtain ⟨req, opt, hc⟩ := statement_eq_ok hstmt
  obtain ⟨m, hm, hof, hknown⟩ := hc.exists_member hi
  have hmem : m ∈ req ++ opt := List.mem_of_getElem? hm
  have horder : joinOrder (S.query.known i) gp = m.piece.placements.map Placement.triple := by
    rw [hof.triples, joinOrder_congr hknown]
  rw [horder, List.getElem?_map, Option.map_eq_some_iff] at hj
  obtain ⟨p, hp, rfl⟩ := hj
  have hplaced : p ∈ m.piece.placements := List.mem_of_getElem? hp
  have hpof := hof.placed p hplaced
  have hr : p.Repeats v := ⟨hs, ho⟩
  have hne : p.subject ≠ p.object := by
    rw [hpof.subject, hpof.object]
    exact fun he => subjectColumn_ne_objectColumn hcat (congrArg Column.name he)
  -- To be the first placement is to be the `0`-th one: no placement occurs twice.
  have hfirst : (p = m.piece.first ∧ m.piece.base.column? v = none) ↔ (j = 0 ∧ v ∉ S.query.known i) := by
    rw [← hknown, Bindings.mem_vars, Option.not_isSome_iff_eq_none]
    refine and_congr_left fun _ => ?_
    cases j with
    | zero => exact iff_of_true (Option.some.inj hp).symm rfl
    | succ j =>
      refine iff_of_false ?_ nofun
      rintro rfl
      exact hc.first_not_mem_rest hmem (List.mem_of_getElem? (i := j) hp)
  refine ⟨horder ▸ hof.triples_perm, m.part, p.table, ?part, ?table, hpof.tableOf?_eq, ?within, ?whole⟩
  case part =>
    rw [hc.parts_eq, List.getElem?_map, hm]
    rfl
  case table =>
    rw [hof.tables, List.getElem?_map, hp]
    rfl
  case within =>
    rw [← hfirst, ← hc.entails_iff hmem hplaced hr hne (fun _ he => he) (hc.conditions_subset hmem), hpof.subject,
      hpof.object]
    rfl
  case whole =>
    rw [← hfirst, ← hc.entails_iff hmem hplaced hr hne (hc.conditions_subset hmem) fun _ he => he, hpof.subject,
      hpof.object]
    rfl

/-- Who knows and likes themselves, and knows themselves once more where this can be. -/
def Session.repeats : Session where
  catalog := { predicates := .ofPairs [("<knows>", "knows"), ("<likes>", "likes")] }
  query :=
    { required := [.pattern ⟨[⟨.var "x", .const "<knows>", .var "x"⟩, ⟨.var "x", .const "<likes>", .var "x"⟩], []⟩]
      optional := [.pattern ⟨[⟨.var "x", .const "<knows>", .var "x"⟩], []⟩] }
  targets := ["x"]

/-- What stands for the required element of `repeats`. -/
def requiredPart : Part where
  kind := .inner
  tree := .join (.base (.table ⟨"knows", "knows"⟩)) .inner (.table ⟨"likes", "likes"⟩)
    [Condition.columnsEqual ⟨"likes", "s"⟩ ⟨"knows", "s"⟩, Condition.columnsEqual ⟨"likes", "o"⟩ ⟨"knows", "s"⟩]
  on := []

/-- What stands for the optional element of `repeats`. -/
def optionalPart : Part where
  kind := .leftOuter
  tree := .base (.table ⟨"knows", "knows_1"⟩)
  on := [Condition.columnsEqual ⟨"knows", "s"⟩ ⟨"knows_1", "s"⟩, Condition.columnsEqual ⟨"knows", "s"⟩ ⟨"knows_1", "o"⟩]

/-- One variable, written twice in three triple patterns: of the first table nothing makes the columns equal; those of the
second one are made equal since the variable has a column by then, and those of the third one since it has a column
before the element. -/
theorem Session.repeats_entails_iff : ∃ st, repeats.catalog.check = .ok () ∧ repeats.build.1 = .ok st ∧
    st.tables.parts = [requiredPart, optionalPart] ∧
    ¬ Entails (st.tables.conditions ++ st.conditions) ⟨"knows", "s"⟩ ⟨"knows", "o"⟩ ∧
    Entails (requiredPart.conditions ++ st.conditions) ⟨"likes", "s"⟩ ⟨"likes", "o"⟩ ∧
    Entails (optionalPart.conditions ++ st.conditions) ⟨"knows_1", "s"⟩ ⟨"knows_1", "o"⟩ := by
  have hcheck : repeats.catalog.check = .ok () := by decide +kernel
  have hbuild : repeats.build.1 = .ok ⟨[⟨"knows", "s"⟩],
      .join requiredPart.tree .leftOuter (.nested optionalPart.tree) optionalPart.on, [], none⟩ := by
    decide +kernel
  have hfirst : (joinOrder (repeats.query.known 0) ⟨[⟨.var "x", .const "<knows>", .var "x"⟩,
      ⟨.var "x", .const "<likes>", .var "x"⟩], []⟩) = [⟨.var "x", .const "<knows>", .var "x"⟩,
      ⟨.var "x", .const "<likes>", .var "x"⟩] := by
    decide +kernel
  have hknown : "x" ∈ repeats.query.known 1 := by decide
  obtain ⟨-, p, table, hp, ht, -, -, hall⟩ :=
    build_entails_iff (i := 0) (j := 0) hcheck hbuild rfl (congrArg (·[0]?) hfirst) rfl rfl
  obtain ⟨-, p', table', hp', ht', -, hown, -⟩ :=
    build_entails_iff (i := 0) (j := 1) hcheck hbuild rfl (congrArg (·[1]?) hfirst) rfl rfl
  obtain ⟨-, p'', table'', hp'', ht'', -, hown', -⟩ :=
    build_entails_iff (i := 1) (j := 0) hcheck hbuild rfl rfl rfl rfl
  obtain rfl : requiredPart = p := Option.some.inj hp
  obtain rfl : requiredPart = p' := Option.some.inj hp'
  obtain rfl : optionalPart = p'' := Option.some.inj hp''
  obtain rfl : ⟨"knows", "knows"⟩ = table := Option.some.inj ht
  obtain rfl : ⟨"likes", "likes"⟩ = table' := Option.some.inj ht'
  obtain rfl : ⟨"knows", "knows_1"⟩ = table'' := Option.some.inj ht''
  exact ⟨_, hcheck, hbuild, rfl, fun h => hall.1 h ⟨rfl, by decide⟩, hown.2 nofun, hown'.2 fun h => h.2 hknown⟩

/-- Who knows themselves. -/
def Session.loops : Session where
  catalog := { predicates := .ofPairs [("<knows>", "knows")] }
  query := { required := [.pattern ⟨[⟨.var "x", .const "<knows>", .var "x"⟩], []⟩] }
  targets := ["x"]

/-- **Not every triple pattern that repeats a variable makes its two columns equal:** of all who know somebody, none
is left out. -/
theorem Session.loops_not_entails : ∃ st, loops.catalog.check = .ok () ∧ loops.build.1 = .ok st ∧
    st.tables.tables = [⟨"knows", "knows"⟩] ∧
      ¬ Entails (st.tables.conditions ++ st.conditions) ⟨"knows", "s"⟩ ⟨"knows", "o"⟩ := by
  have hbuild : loops.build.1 = .ok ⟨[⟨"knows", "s"⟩], .base (.table ⟨"knows", "knows"⟩), [], none⟩ := by decide +kernel
  exact ⟨_, by decide +kernel, hbuild, rfl, fun h => absurd (h.eq_of_not_read nofun) (by decide)⟩

end Compile
end TripleSql
