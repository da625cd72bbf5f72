/-
# Names do not matter to compiling

A query under other names compiles to the statement of the query with other literals, or fails with the same kind of error
(`Session.build_rename`). The aliases, the order of the joins, the columns and the order of the conditions are the same,
whatever the variables are called and whatever the constants are, as long as different ones stay different.

A step commutes with a renaming if it does in the renamed scope what it does in the scope, renamed, be it an answer or an
error (`Step.Commutes`). Steps one after the other commute if each of them does, and every step of compiling is made of
placing triple patterns, of checks, and of parts that leave the aliases alone.
-/

import TripleSql.Proofs.RenamedParts
import TripleSql.Proofs.Scoping

namespace TripleSql
namespace Compile

open Pattern Sql

variable {r : Renaming}

section Steps

variable {α α' β β' : Type} {f : α → α'} {g : β → β'}

/-- The outcome of a step with its value passed through a function, and its error and its scope renamed. -/
def outcomeRenamed (r : Renaming) (f : α → α') : EStateM.Result Error Scope α → EStateM.Result Error Scope α'
  | .ok a s => .ok (f a) (s.rename r)
  | .error e s => .error (e.rename r) (s.rename r)

/-- **A step commutes with a renaming:** the second one does in the renamed scope what the first one does, renamed. -/
def Step.Commutes (r : Renaming) (f : α → α') (x : Step α) (y : Step α') : Prop :=
  ∀ s : Scope, y (s.rename r) = outcomeRenamed r f (x s)

namespace Step.Commutes

theorem pure (a : α) : Commutes r f (pure a) (pure (f a)) := fun _ => rfl

theorem throw (e : Error) : Commutes r f (throw e) (throw (e.rename r)) := fun _ => rfl

theorem get : Commutes r (Scope.rename r) get get := fun _ => rfl

/-- A part that leaves the aliases alone commutes as a step if it does as a function. -/
theorem modifyGet {m : Scope → α × Scope} {m' : Scope → α' × Scope}
    (h : ∀ s : Scope, m' (s.rename r) = (f (m s).1, (m s).2.rename r)) :
    Commutes r f (modifyGet m) (modifyGet m') := fun s => by
  change EStateM.Result.ok (m' (s.rename r)).1 (m' (s.rename r)).2 = _
  rw [h]
  rfl

/-- A check commutes if its outcome is renamed. -/
theorem ofExcept {x : Except Error α} {y : Except Error α'} (h : y = r.except f x) :
    Commutes r f (MonadExcept.ofExcept x) (MonadExcept.ofExcept y) := fun s => by
  subst h
  cases x <;> rfl

/-- **One step after another:** they commute if the first does and the second does for each value of the first. -/
theorem bind {x : Step α} {y : Step α'} {k : α → Step β} {k' : α' → Step β'} (hx : Commutes r f x y)
    (hk : ∀ a, Commutes r g (k a) (k' (f a))) : Commutes r g (x >>= k) (y >>= k') := fun s => by
  change EStateM.bind y k' (s.rename r) = outcomeRenamed r g (EStateM.bind x k s)
  unfold EStateM.bind
  rw [hx s]
  cases x s with
  | ok a t => exact hk a t
  | error e t => rfl

end Step.Commutes

end Steps

open Step

variable {cat : Catalog}

/-- **Placing a triple pattern** takes the same alias under other names. -/
theorem place_commutes (t : Triple) : Commutes r (Placement.rename r) (place cat t) (place cat (t.rename r)) := by
  intro s
  obtain ⟨subject, predicate, object⟩ := t
  cases predicate with
  | var v => rfl
  | const p =>
    unfold place
    dsimp only [Triple.rename, Node.map, id, Scope.rename]
    cases cat.resolve s.aliases (.const p) with
    | error e => cases e <;> rfl
    | ok a =>
      obtain ⟨table, aliases⟩ := a
      refine congrArg (EStateM.Result.ok _) ?_
      exact Scope.foldl_record_rename (r := r) ⟨⟨subject, .const p, object⟩, table, _, _⟩ { s with aliases }

/-- Joining triple patterns commutes with a renaming; the induction is over those that are left. -/
theorem joinEach_commutes (ts : List Triple) (g : Growth) : Commutes r (Growth.rename r) (Growth.joinEach cat g ts)
    (Growth.joinEach cat (g.rename r) (ts.map (Triple.rename r))) := by
  induction ts generalizing g with
  | nil => exact .pure g
  | cons t ts ih =>
    refine (place_commutes t).bind fun p => ?_
    refine (Commutes.modifyGet fun s => g.join_rename p s).bind fun g => ih g

/-- **A graph pattern** compiles to the renamed fragment under other names. -/
theorem fragment_commutes (gp : GraphPattern) :
    Commutes r (Fragment.rename r) (fragment cat gp) (fragment cat (gp.rename r)) := by
  obtain ⟨triples, filters⟩ := gp
  cases triples with
  | nil => exact .throw _
  | cons t ts =>
    refine (Commutes.ofExcept (Pending.ofFilters_rename filters)).bind fun pending => ?_
    refine (place_commutes t).bind fun first => ?_
    refine Commutes.get.bind fun s => ?_
    have harrange : arrange (s.rename r).bindings.vars (ts.map (Triple.rename r)) = _ :=
      (congrArg (arrange · _) (Bindings.vars_rename s.bindings)).trans (arrange_rename s.bindings.vars ts)
    rw [harrange, Fragment.single_rename]
    generalize arrange s.bindings.vars ts = order
    obtain ⟨reached, stranded⟩ := order
    refine (joinEach_commutes reached ⟨.single first, pending⟩).bind fun g => ?_
    refine Commutes.get.bind fun s => ?_
    have hstranded : (stranded.map (Triple.rename r) = []) = (stranded = []) := by rw [List.map_eq_nil_iff]
    simp only [hstranded]
    split
    · exact .ofExcept (g.finish_rename first s.bindings)
    · have herror : Error.unreachable (stranded.map (Triple.rename r)) (s.rename r).bindings.names =
          (Error.unreachable stranded s.bindings.names).rename r := congrArg _ (Bindings.names_rename s.bindings)
      rw [herror]
      exact .throw _

/-- A nested query is refused in any role under any names. -/
theorem graphPattern_rename (role : Role) (e : Element) :
    graphPattern role (e.rename r) = r.except (GraphPattern.rename r) (graphPattern role e) := by
  cases e <;> rfl

/-- A required element is joined, or refused, alike. -/
theorem requireElement_commutes (a? : Option Assembly) (e : Element) : Commutes r (Assembly.rename r)
    (requireElement cat a? e) (requireElement cat (a?.map (Assembly.rename r)) (e.rename r)) := by
  refine (Commutes.ofExcept (graphPattern_rename .required e)).bind fun gp => ?_
  refine (fragment_commutes gp).bind fun f => ?_
  cases a? with
  | none =>
    change Commutes r _ (pure (Assembly.start f)) (pure (Assembly.start (f.rename r)))
    rw [Assembly.start_rename]
    exact .pure _
  | some a => exact Commutes.get.bind fun s => .ofExcept (a.require_rename f s.bindings)

/-- **The required elements** are joined in the same way under other names. -/
theorem requireEach_commutes (es : List Element) (a? : Option Assembly) :
    Commutes r (Option.map (Assembly.rename r)) (requireEach cat a? es)
      (requireEach cat (a?.map (Assembly.rename r)) (es.map (Element.rename r))) := by
  induction es generalizing a? with
  | nil => exact .pure a?
  | cons e es ih => exact (requireElement_commutes a? e).bind fun a => ih (some a)

/-- An optional element is joined, or refused, alike, and the variables before it are put back. -/
theorem allowElement_commutes (a : Assembly) (e : Element) :
    Commutes r (Prod.map (Assembly.rename r) (Bindings.rename r)) (allowElement cat a e)
      (allowElement cat (a.rename r) (e.rename r)) := by
  refine (Commutes.ofExcept (graphPattern_rename .optional e)).bind fun gp => ?_
  refine Commutes.get.bind fun s => ?_
  refine (fragment_commutes gp).bind fun f => ?_
  refine Commutes.get.bind fun s' => ?_
  refine Commutes.bind (f := List.map (Condition.mapLiterals r.const)) (Commutes.modifyGet fun t => ?_) fun constants => ?_
  · have haliases : (f.rename r).tree.aliases = f.tree.aliases := JoinTree.aliases_mapLiterals _
    have htake : (t.rename r).constants.takeAll f.tree.aliases = _ := Constants.takeAll_rename t.constants _
    simp only [haliases, htake]
    rfl
  · refine (Commutes.ofExcept (a.allow_rename f s.bindings constants)).bind fun a => ?_
    exact .pure (a, s'.bindings)

/-- **The optional elements** are joined in the same way under other names. -/
theorem allowEach_commutes (es : List Element) (a : Assembly) (all : Bindings) :
    Commutes r (Prod.map (Assembly.rename r) (Bindings.rename r)) (allowEach cat a all es)
      (allowEach cat (a.rename r) (all.rename r) (es.map (Element.rename r))) := by
  induction es generalizing a all with
  | nil => exact .pure (a, all)
  | cons e es ih =>
    refine (allowElement_commutes a e).bind fun ⟨a, own⟩ => ?_
    have hall : (all.rename r).bindAll (own.rename r).entries = (all.bindAll own.entries).rename r :=
      Bindings.bindAll_rename all own.entries
    change Commutes r _ _ (allowEach cat (a.rename r) ((all.rename r).bindAll (own.rename r).entries) _)
    rw [hall]
    exact ih a _

/-- **A query** compiles to the statement with other literals under other names. -/
theorem statement_commutes (q : Query) (targets : List String) (ordering : Option (String × Direction)) :
    Commutes r (Statement.mapLiterals r.const) (statement cat q targets ordering)
      (statement cat (q.rename r) (targets.map r.var) (ordering.map fun o => (r.var o.1, o.2))) := by
  unfold statement
  have hrequired : (q.rename r).required = q.required.map (Element.rename r) := Element.renameEach_eq_map r q.required
  have hoptional : (q.rename r).optional = q.optional.map (Element.rename r) := Element.renameEach_eq_map r q.optional
  rw [hrequired, hoptional]
  refine (requireEach_commutes q.required none).bind fun core? => ?_
  cases core? with
  | none => exact .throw _
  | some core =>
    refine Commutes.get.bind fun s => ?_
    refine (allowEach_commutes q.optional core s.bindings).bind fun ⟨a, all⟩ => ?_
    have htargets : (targets.map r.var).mapM (targetColumn (all.rename r)) =
        r.except id (targets.mapM (targetColumn all)) := by
      rw [Renaming.except_mapM (targetColumn_rename all), List.map_id_fun]
    refine (Commutes.ofExcept htargets).bind fun select => ?_
    refine (Commutes.ofExcept (orderColumn_rename all ordering)).bind fun order => ?_
    refine Commutes.get.bind fun s => ?_
    have hconditions : Condition.pushAll (s.rename r).constants.conditions (a.rename r).residual =
        (Condition.pushAll s.constants.conditions a.residual).map (Condition.mapLiterals r.const) := by
      rw [← Condition.map_pushAll r.const_injective, ← Constants.conditions_rename]
      rfl
    change Commutes r _ (pure _) (pure (Statement.mk _ _ (Condition.pushAll (s.rename r).constants.conditions
      (a.rename r).residual) _))
    rw [hconditions]
    exact .pure _

namespace Session

/-- The session with its query, its targets and its ordering renamed. -/
def rename (r : Renaming) (s : Session) : Session :=
  { s with
    query := s.query.rename r
    targets := s.targets.map r.var
    ordering := s.ordering.map fun o => (r.var o.1, o.2) }

/-- What a session builds under other names is what it builds, renamed, and it takes the same aliases. -/
theorem build_rename_eq (r : Renaming) (s : Session) :
    (s.rename r).build = (r.except (Statement.mapLiterals r.const) s.build.1, s.build.2.rename r) := by
  have htargets : ((s.rename r).targets = []) = (s.targets = []) := propext List.map_eq_nil_iff
  have hstatement : statement (s.rename r).catalog (s.rename r).query (s.rename r).targets (s.rename r).ordering {} =
      outcomeRenamed r (Statement.mapLiterals r.const) (statement s.catalog s.query s.targets s.ordering {}) :=
    statement_commutes s.query s.targets s.ordering {}
  unfold build
  simp only [htargets, hstatement]
  split
  · rfl
  · cases statement s.catalog s.query s.targets s.ordering {} <;> rfl

/-- **Names of variables and values of constants do not matter.** A session builds a statement exactly if it does under
other names, and the two statements differ in their literals only; if it fails, it fails with an error of the same kind
under other names, which shows the other names. -/
theorem build_rename (r : Renaming) (s : Session) :
    (∀ st, s.build.1 = .ok st → (s.rename r).build.1 = .ok (st.mapLiterals r.const)) ∧
      ∀ e, s.build.1 = .error e → (s.rename r).build.1 = .error (e.rename r) ∧ (e.rename r).ctorIdx = e.ctorIdx := by
  refine ⟨fun st hst => ?_, fun e he => ⟨?_, e.ctorIdx_rename r⟩⟩
  · rw [build_rename_eq, hst]
    rfl
  · rw [build_rename_eq, he]
    rfl

/-- The variables `x` and `a` exchanged, and a quote before every constant. -/
def exchanged : Renaming where
  var := Equiv.swap "x" "a"
  const := ("'" ++ ·)
  var_injective := (Equiv.swap "x" "a").injective
  const_injective _ _ := (String.append_right_inj "'").1

/-- Exchanging the two variables of `friends` and marking its constants changes literals only. -/
theorem friends_build_rename : (friends.rename exchanged).targets = ["a", "x"] ∧
    ∃ st, friends.build.1 = .ok st ∧ (friends.rename exchanged).build.1 = .ok (st.mapLiterals ("'" ++ ·)) := by
  obtain ⟨st, hst⟩ := exists_build_friends
  obtain ⟨hok, -⟩ := build_rename exchanged friends
  exact ⟨by decide +kernel, st, hst, hok st hst⟩

end Session
end Compile
end TripleSql
