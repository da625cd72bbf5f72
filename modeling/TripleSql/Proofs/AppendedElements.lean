/-
# One more optional element

A query and the same query with one more optional element at its end give statements that differ in one join
(`Session.build_snoc_optional`). The columns of the targets, the conditions in `WHERE` and the ordering are the same, and
the join tree is the old one with the new element joined to it by a left outer join on at least one condition:

| what the new element could change | why it does not |
| --- | --- |
| the aliases of tables before it | they are taken already, and it takes others |
| the column of a target | a variable stands for its first column, and all targets have one |
| the constants left for `WHERE` | its own wait under its own aliases, and all of these are taken for its `ON` |
| the residual conditions | its own go to its `ON` |

Without a condition that connects it the element would not be joined at all.
-/

import TripleSql.Proofs.Scoping

namespace TripleSql
namespace Compile

open Pattern Sql

/-- A fragment that is joined has a condition that connects it to the tables before it. -/
theorem Assembly.exists_connection {kind : JoinKind} {more : List Condition} {f : Fragment} {b : Bindings}
    {a a' : Assembly} (h : a.attach kind more f b = .ok a') : ∃ e, e ∈ a.links f b ∨ e ∈ f.outer := by
  unfold attach at h
  dsimp only at h
  split at h
  · cases h
  · next hne =>
    obtain ⟨e, he⟩ := List.exists_mem_of_ne_nil _ hne
    exact ⟨e, List.mem_append.1 (Condition.mem_distinct he)⟩

section Run

variable {cat : Catalog} {a a' : Assembly} {e : Element} {es fs : List Element} {all all' : Bindings} {s s' : Scope}

theorem allowEach_append_eq_ok (h : allowEach cat a all (es ++ fs) s = .ok (a', all') s') :
    ∃ a₁ all₁ s₁, allowEach cat a all es s = .ok (a₁, all₁) s₁ ∧ allowEach cat a₁ all₁ fs s₁ = .ok (a', all') s' := by
  rw [allowEach_append] at h
  obtain ⟨⟨a₁, all₁⟩, s₁, hes, hfs⟩ := Step.bind_eq_ok.1 h
  exact ⟨a₁, all₁, s₁, hes, hfs⟩

theorem allowEach_singleton_eq_ok (h : allowEach cat a all [e] s = .ok (a', all') s') :
    ∃ own, allowElement cat a e s = .ok (a', own) s' ∧ all' = all.bindAll own.entries := by
  obtain ⟨⟨a₁, own⟩, s₁, he, hnil⟩ := Step.bind_eq_ok.1 h
  obtain ⟨heq, rfl⟩ := Step.pure_eq_ok.1 hnil
  cases heq
  exact ⟨own, he, rfl⟩

end Run

/-- **What one more optional element does to an assembly:** it is joined on at least one condition, and neither the
residual conditions nor what is left of the constants change. -/
theorem allowElement_conservative {cat : Catalog} {e : Element} {a a' : Assembly} {own : Bindings} {s s' : Scope}
    (hs : s.Fresh) (h : allowElement cat a e s = .ok (a', own) s') :
    ∃ tree on, on ≠ [] ∧ a'.tree = .join a.tree .leftOuter (.nested tree) on ∧ a'.residual = a.residual ∧
      s'.constants.conditions = s.constants.conditions := by
  obtain ⟨gp, f, t, rfl, hf, rfl, ha, rfl⟩ := allowElement_eq_ok h
  obtain ⟨x, hx⟩ := fragment_eq_ok hs hf
  obtain ⟨on, rfl, -, hon⟩ := Assembly.attach_eq_ok ha
  obtain ⟨c, hc⟩ := Assembly.exists_connection ha
  obtain ⟨d, hd, -⟩ := hon c (hc.imp_right .inl)
  exact ⟨f.tree, on, List.ne_nil_of_mem hd, rfl, rfl, Constants.conditions_congr (hx.under_takeAll hs)⟩

/-- Targets that have columns keep them when more is bound. -/
theorem mapM_targetColumn_bindAll {all : Bindings} {es : List (String × Column)} {targets : List String}
    {cs cs' : List Column} (h : targets.mapM (targetColumn all) = .ok cs)
    (h' : targets.mapM (targetColumn (all.bindAll es)) = .ok cs') : cs' = cs := by
  have hkept := (mapM_eq_ok_except.1 h).imp fun v c hv =>
    targetColumn_eq_ok.2 (Bindings.column?_bindAll_of_column? (targetColumn_eq_ok.1 hv) es)
  exact Except.ok.inj (h'.symm.trans (mapM_eq_ok_except.2 hkept))

/-- An ordering keeps its column when more is bound. -/
theorem orderColumn_bindAll {all : Bindings} {es : List (String × Column)} {ordering : Option (String × Direction)}
    {o o' : Option OrderBy} (h : orderColumn all ordering = .ok o)
    (h' : orderColumn (all.bindAll es) ordering = .ok o') : o' = o := by
  cases ordering with
  | none => exact Except.ok.inj (h'.symm.trans h)
  | some t =>
    obtain ⟨c, hc, rfl⟩ := map_eq_ok_except.1 h
    obtain ⟨c', hc', rfl⟩ := map_eq_ok_except.1 h'
    have hkept := Bindings.column?_bindAll_of_column? (targetColumn_eq_ok.1 hc) es
    rw [Option.some.inj ((targetColumn_eq_ok.1 hc').symm.trans hkept)]

/-- The session of a query with one more optional element. -/
def Session.snocOptional (s : Session) (gp : GraphPattern) : Session :=
  { s with query := { s.query with optional := s.query.optional ++ [.pattern gp] } }

/-- **One more optional element at the end adds one join** and changes nothing else, whatever the catalog: if the query
compiles with and without it, the join tree grows by a left outer join on at least one condition, and the columns, the
conditions in `WHERE` and the ordering are the same. -/
theorem Session.build_snoc_optional {S : Session} {gp : GraphPattern} {st st' : Statement} (h : S.build.1 = .ok st)
    (h' : (S.snocOptional gp).build.1 = .ok st') :
    ∃ tree on, on ≠ [] ∧ st' = { st with tables := .join st.tables .leftOuter (.nested tree) on } := by
  obtain ⟨-, s, hs⟩ := Session.build_eq_ok h
  obtain ⟨-, s', hs'⟩ := Session.build_eq_ok h'
  obtain ⟨core, s₁, a, all, hrequire, hallow, hselect, horder, htables, hconditions⟩ := statement_eq_ok_iff.1 hs
  obtain ⟨core', s₁', a', all', hrequire', hallow', hselect', horder', htables', hconditions'⟩ :=
    statement_eq_ok_iff.1 hs'
  -- The two runs are one up to the last element.
  obtain ⟨hcore, rfl⟩ := EStateM.Result.ok.inj (hrequire'.symm.trans hrequire)
  obtain rfl := Option.some.inj hcore
  obtain ⟨a₁, all₁, s₂, hallow₁, hlast⟩ := allowEach_append_eq_ok hallow'
  obtain ⟨hpair, rfl⟩ := EStateM.Result.ok.inj (hallow₁.symm.trans hallow)
  cases hpair
  obtain ⟨own, helement, rfl⟩ := allowEach_singleton_eq_ok hlast
  obtain ⟨req, hreq⟩ := requireEach_eq_ok hrequire
  obtain ⟨opt, hopt⟩ := allowEach_eq_ok hreq.members (Extended.of_standing hreq) hallow
  obtain ⟨tree, on, hon, htree, hresidual, hconstants⟩ := allowElement_conservative hopt.fresh helement
  refine ⟨tree, on, hon, ?_⟩
  calc
    st' = ⟨st'.select, st'.tables, st'.conditions, st'.ordering⟩ := rfl
    _ = ⟨st.select, .join a.tree .leftOuter (.nested tree) on,
          Condition.pushAll s₂.constants.conditions a.residual, st.ordering⟩ := by
      rw [mapM_targetColumn_bindAll hselect hselect', orderColumn_bindAll horder horder', htables', htree,
        hconditions', hresidual, hconstants]
    _ = { st with tables := .join st.tables .leftOuter (.nested tree) on } := by rw [← htables, ← hconditions]

/-- Who knows and likes whom, with the ages of two of them where they are known. -/
theorem Session.friends_snoc_optional : ∃ st st' tree on, friends.build.1 = .ok st ∧
    (friends.snocOptional ⟨[⟨.var "z", .const "<age>", .var "b"⟩], [⟨.var "b", "<", .const "30"⟩]⟩).build.1 = .ok st' ∧
      on ≠ [] ∧ st' = { st with tables := .join st.tables .leftOuter (.nested tree) on } := by
  obtain ⟨st, h⟩ := exists_build_friends
  obtain ⟨st', h'⟩ := exists_build
    (S := friends.snocOptional ⟨[⟨.var "z", .const "<age>", .var "b"⟩], [⟨.var "b", "<", .const "30"⟩]⟩)
    (by decide +kernel)
  obtain ⟨tree, on, hon, hst⟩ := build_snoc_optional h h'
  exact ⟨st, st', tree, on, h, h', hon, hst⟩

end Compile
end TripleSql
