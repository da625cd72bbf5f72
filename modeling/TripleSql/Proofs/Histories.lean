/-
# What a session was asked before does not show

A session is asked for many things, one after the other (`Session.run`): new targets, an ordering, which may be refused, a
statement or its text, which may fail at any point. What it then builds depends on two of the calls only, the last one
that set targets and the last one after it that was granted an ordering (`Session.build_run_replay`):

| calls | what counts |
| --- | --- |
| `orderBy x`, `setTargets [x, y]`, `orderBy y`, `build` | `setTargets [x, y]`, `orderBy y` |
| `setTargets [x]`, `orderBy x`, `setTargets [y]`, `orderBy x` | `setTargets [y]`: the last ordering is refused |
| `setTargets [x]`, `orderBy x`, `compile`, `orderBy z` | `setTargets [x]`, `orderBy x`: the refused one changes nothing |

The aliases that a build took, one that fails midway among them, stay in the session; the next build does not read them.
-/

import Mathlib.Data.List.DropRight
import TripleSql.Proofs.Scoping

namespace TripleSql
namespace Compile

open Pattern Sql

/-- What a session may be asked. -/
inductive Call where
  | setTargets (targets : List String)
  | orderBy (target : String) (direction : Direction)
  | compile
  | build
deriving DecidableEq, Repr

namespace Call

/-- The targets that a call sets. -/
def targets? : Call → Option (List String)
  | setTargets targets => some targets
  | _ => none

/-- The ordering that a call asks for. -/
def ordering? : Call → Option (String × Direction)
  | orderBy target direction => some (target, direction)
  | _ => none

/-- The targets that were set last, if any were. -/
def lastTargets? (calls : List Call) : Option (List String) := (calls.filterMap targets?).getLast?

/-- The targets that stand after some calls. -/
def lastTargets (calls : List Call) : List String := (lastTargets? calls).getD []

/-- The calls after the last one that set targets. -/
def sinceTargets (calls : List Call) : List Call := calls.rtakeWhile (·.targets?.isNone)

/-- Of the orderings by one of the targets that stand, the one asked for last after they were set. -/
def lastOrdering (calls : List Call) : Option (String × Direction) :=
  (((sinceTargets calls).filterMap ordering?).filter (·.1 ∈ lastTargets calls)).getLast?

/-- The calls that count: the last targets, and the last ordering that was granted after them. -/
def replay (calls : List Call) : List Call :=
  (lastTargets? calls).toList.map setTargets ++ (lastOrdering calls).toList.map fun o => orderBy o.1 o.2

variable {calls : List Call} {c : Call}

/-- The last call that sets targets counts. -/
theorem lastTargets_snoc (calls : List Call) (c : Call) :
    lastTargets (calls ++ [c]) = c.targets?.getD (lastTargets calls) := by
  unfold lastTargets lastTargets?
  rw [List.filterMap_append, List.getLast?_append]
  cases c <;> rfl

/-- New targets discard the ordering. -/
theorem lastOrdering_snoc_of_targets {ts : List String} (h : c.targets? = some ts) :
    lastOrdering (calls ++ [c]) = none := by
  rw [lastOrdering, sinceTargets, List.rtakeWhile_concat_neg _ _ _ (by simp [h])]
  rfl

/-- An ordering that is asked for replaces the one before, if it is by one of the targets. -/
theorem lastOrdering_snoc (h : c.targets? = none) :
    lastOrdering (calls ++ [c]) = (c.ordering?.filter (·.1 ∈ lastTargets calls)).or (lastOrdering calls) := by
  have hlast : ∀ p, ((List.filterMap ordering? [c]).filter p).getLast? = c.ordering?.filter p := fun p => by
    cases ho : c.ordering? with
    | none => simp [ho]
    | some o => cases hp : p o <;> simp [ho, hp, Option.filter]
  rw [lastOrdering, sinceTargets, List.rtakeWhile_concat_pos _ _ _ (by simp [h]), lastTargets_snoc, h,
    Option.getD_none, List.filterMap_append, List.filter_append, List.getLast?_append, hlast]
  rfl

/-- The ordering that counts is by one of the targets. -/
theorem mem_lastTargets_of_lastOrdering {o : String × Direction} (h : lastOrdering calls = some o) :
    o.1 ∈ lastTargets calls := by
  have := List.mem_of_getLast? h
  simpa using (List.mem_filter.1 this).2

end Call

namespace Session

/-- The session after a call; a refused ordering leaves it as it was. -/
def after (s : Session) : Call → Session
  | .setTargets targets => s.setTargets targets
  | .orderBy target direction => (s.orderBy target direction).toOption.getD s
  | .compile => s.compile.2
  | .build => s.build.2

/-- The session after some calls, one after the other. -/
def run (s : Session) (calls : List Call) : Session := calls.foldl after s

/-- Calls one after the other. -/
theorem run_append (s : Session) (calls calls' : List Call) : s.run (calls ++ calls') = (s.run calls).run calls' :=
  List.foldl_append

/-- **An ordering is granted by a target,** and by nothing else. -/
theorem exists_orderBy_eq_ok {s : Session} {t : String} {d : Direction} :
    (∃ s', s.orderBy t d = .ok s') ↔ t ∈ s.targets := by
  unfold orderBy
  split
  · next h => exact iff_of_true ⟨_, rfl⟩ h
  · next h => exact iff_of_false nofun h

/-- Building changes nothing but the aliases that are taken. -/
theorem exists_build_snd (s : Session) : ∃ aliases, s.build.2 = { s with aliases } := by
  unfold build
  split
  · exact ⟨s.aliases, rfl⟩
  · split
    · exact ⟨_, rfl⟩
    · exact ⟨_, rfl⟩

/-- What is built does not depend on the aliases that were taken before. -/
theorem build_fst_congr (s : Session) (aliases : Catalog.Aliases) :
    ({ s with aliases } : Session).build.1 = s.build.1 := by
  unfold build
  dsimp only
  split
  · rfl
  · split <;> rfl

/-- A session of which nothing was asked yet. -/
def fresh (cat : Catalog) (q : Query) : Session := { catalog := cat, query := q }

/-- **What calls leave behind:** the targets and the ordering that stand, and some aliases. -/
theorem exists_run_fresh (cat : Catalog) (q : Query) (calls : List Call) : ∃ aliases,
    (fresh cat q).run calls = ⟨cat, q, Call.lastTargets calls, Call.lastOrdering calls, aliases⟩ := by
  induction calls using List.reverseRecOn with
  | nil => exact ⟨{}, rfl⟩
  | append_singleton calls c ih =>
    obtain ⟨aliases, hrun⟩ := ih
    have hafter : (fresh cat q).run (calls ++ [c]) = ((fresh cat q).run calls).after c := run_append ..
    rw [hafter, hrun, Call.lastTargets_snoc]
    cases c with
    | setTargets ts =>
      rw [Call.lastOrdering_snoc_of_targets rfl]
      exact ⟨aliases, rfl⟩
    | orderBy t d =>
      rw [Call.lastOrdering_snoc rfl]
      refine ⟨aliases, ?_⟩
      by_cases ht : t ∈ Call.lastTargets calls <;>
        simp [after, orderBy, Call.ordering?, Call.targets?, Except.toOption, Option.filter, ht]
    | compile =>
      rw [Call.lastOrdering_snoc rfl]
      exact exists_build_snd _
    | build =>
      rw [Call.lastOrdering_snoc rfl]
      exact exists_build_snd _

/-- The calls that count leave the same targets and the same ordering as all of them. -/
theorem exists_run_replay (cat : Catalog) (q : Query) (calls : List Call) :
    (fresh cat q).run (Call.replay calls) = ⟨cat, q, Call.lastTargets calls, Call.lastOrdering calls, {}⟩ := by
  have htargets : (fresh cat q).run ((Call.lastTargets? calls).toList.map .setTargets) =
      ⟨cat, q, Call.lastTargets calls, none, {}⟩ := by
    rw [Call.lastTargets]
    cases Call.lastTargets? calls <;> rfl
  rw [Call.replay, run_append, htargets]
  cases h : Call.lastOrdering calls with
  | none => rfl
  | some o =>
    have ho := Call.mem_lastTargets_of_lastOrdering h
    simp [run, after, orderBy, ho, Except.toOption]

/-- **The ordering column of a statement is one of its columns,** where the ordering is by a target. -/
theorem column_mem_select {s : Session} {st : Statement} (h : s.build.1 = .ok st)
    (hs : ∀ o ∈ s.ordering, o.1 ∈ s.targets) : ∀ o ∈ st.ordering, o.column ∈ st.select := by
  obtain ⟨-, scope, hst⟩ := build_eq_ok h
  obtain ⟨core, s₁, a, all, -, -, hselect, horder, -, -⟩ := statement_eq_ok_iff.1 hst
  intro o ho
  obtain ⟨v, hv, hcolumn⟩ := exists_of_orderColumn horder ho
  have hselected := mapM_eq_ok_except.1 hselect
  obtain ⟨c, hc, hvc⟩ := exists_right_of_forall₂ hselected (hs _ hv)
  rw [targetColumn_eq_ok, hcolumn] at hvc
  exact Option.some.inj hvc ▸ hc

/-- **What is built does not depend on what was asked before,** but for two calls. After any calls, of which some may
fail, an ordering is granted exactly by a target that was set last. The session then builds what one builds that was
asked for the last targets only, and for the last ordering that was granted after them if there is one; and if what is
built is a statement with an ordering, the ordering column is one of the columns of its rows. -/
theorem build_run_replay (cat : Catalog) (q : Query) (calls : List Call) :
    (∀ t d, (∃ s, ((fresh cat q).run calls).orderBy t d = .ok s) ↔ t ∈ Call.lastTargets calls) ∧
      ((fresh cat q).run calls).build.1 = ((fresh cat q).run (Call.replay calls)).build.1 ∧
      ∀ st, ((fresh cat q).run calls).build.1 = .ok st → ∀ o ∈ st.ordering, o.column ∈ st.select := by
  obtain ⟨aliases, hrun⟩ := exists_run_fresh cat q calls
  refine ⟨fun t d => ?_, ?_, fun st hst => ?_⟩
  · rw [exists_orderBy_eq_ok, hrun]
  · rw [hrun, exists_run_replay]
    exact build_fst_congr ⟨cat, q, Call.lastTargets calls, Call.lastOrdering calls, {}⟩ aliases
  · refine column_mem_select hst fun o ho => ?_
    rw [hrun] at ho ⊢
    exact Call.mem_lastTargets_of_lastOrdering ho

/-- Calls on `friends`: an ordering without targets, a target that is bound nowhere, and an ordering by no target, each
of which fails. -/
def quarrel : List Call :=
  [.orderBy "x" .ascending, .build, .setTargets ["x", "nobody"], .orderBy "nobody" .ascending, .compile,
    .setTargets ["x", "a"], .orderBy "x" .ascending, .build, .orderBy "a" .descending, .orderBy "y" .ascending, .compile]

/-- Of all calls two count: the targets that were set last and the ordering that was granted after them. -/
theorem friends_run_replay : Call.replay quarrel = [.setTargets ["x", "a"], .orderBy "a" .descending] ∧
    ∃ st, ((fresh friends.catalog friends.query).run quarrel).build.1 = .ok st ∧
      ((fresh friends.catalog friends.query).run (Call.replay quarrel)).build.1 = .ok st ∧
        st.ordering = some ⟨⟨"age", "o"⟩, .descending⟩ ∧ ⟨"age", "o"⟩ ∈ st.select := by
  obtain ⟨-, hbuild, hselect⟩ := build_run_replay friends.catalog friends.query quarrel
  obtain ⟨st, hst⟩ := exists_build (S := (fresh friends.catalog friends.query).run quarrel) (by decide +kernel)
  have horder : st.ordering = some ⟨⟨"age", "o"⟩, .descending⟩ := eq_of_build hst Statement.ordering (by decide +kernel)
  exact ⟨by decide +kernel, st, hst, hbuild.symm.trans hst, horder, hselect st hst _ horder⟩

end Session
end Compile
end TripleSql
