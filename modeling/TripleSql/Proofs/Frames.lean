/-
# What compiling leaves as it was

Compiling goes on from what was compiled before: the aliases that are taken, the columns of the variables, the constants
that wait. Whether it succeeds or fails, it leaves all of that as it was (`Scope.IsKeptIn`):

| what | how it is left |
| --- | --- |
| aliases | taken, others are taken after them |
| columns | every variable that has one keeps it |
| constants | what waits under an alias that was taken waits on, and nothing joins it there |

A join takes constants under the aliases of the tables that it joins. These are tables of the graph pattern that is
compiled, so their aliases are new, and what waits under others is not touched.

`Step.after` is the scope that a step leaves, and a step is steady if it keeps every scope that it starts from. Steps
that are made of steady ones are steady, up to the step that makes a whole statement.
-/

import TripleSql.Proofs.Scoping

namespace TripleSql
namespace Compile

open Pattern Sql

/-- Every variable with a column has the same one in other bindings. -/
def Bindings.IsKeptIn (b b' : Bindings) : Prop := ∀ v c, b.column? v = some c → b'.column? v = some c

/-- Binding further variables replaces no column. -/
theorem Bindings.isKeptIn_bindAll (b : Bindings) (es : List (String × Column)) : b.IsKeptIn (b.bindAll es) :=
  fun _ _ h => column?_bindAll_of_column? h es

/-- What is known in a scope is known in another one: its columns, its aliases, and what waits under these. -/
structure Scope.IsKeptIn (s s' : Scope) : Prop where
  bindings : s.bindings.IsKeptIn s'.bindings
  taken : s.aliases.taken <+: s'.aliases.taken
  constants : ∀ a ∈ s.aliases.taken, s'.constants.under a = s.constants.under a

namespace Scope.IsKeptIn

variable {s t u : Scope}

theorem refl (s : Scope) : s.IsKeptIn s := ⟨fun _ _ h => h, List.prefix_rfl, fun _ _ => rfl⟩

/-- What is kept twice is kept. -/
theorem trans (h : s.IsKeptIn t) (h' : t.IsKeptIn u) : s.IsKeptIn u where
  bindings v c hv := h'.bindings v c (h.bindings v c hv)
  taken := h.taken.trans h'.taken
  constants a ha := (h'.constants a (h.taken.subset ha)).trans (h.constants a ha)

end Scope.IsKeptIn

namespace Step

variable {α β : Type} {x : Step α} {f : α → Step β} {s : Scope} {P : Scope → Prop}

/-- The scope after a step, whether it succeeds or fails. -/
def after (x : Step α) (s : Scope) : Scope :=
  match x s with
  | .ok _ t => t
  | .error _ t => t

/-- A step that succeeds leaves the scope that it answers with. -/
theorem after_of_eq_ok {a : α} {t : Scope} (h : x s = .ok a t) : x.after s = t := by
  rw [after, h]

/-- A step that fails leaves a scope as well. -/
theorem after_of_eq_error {e : Error} {t : Scope} (h : x s = .error e t) : x.after s = t := by
  rw [after, h]

/-- **A property of the scope after two steps:** it is that after the second step, or after the first if that fails. -/
theorem after_bind (hx : ∀ e t, x s = .error e t → P t) (hf : ∀ a t, x s = .ok a t → P ((f a).after t)) :
    P ((x >>= f).after s) := by
  cases h : x s with
  | ok a t =>
    rw [after, bind_of_eq_ok h]
    exact hf a t h
  | error e t =>
    rw [after_of_eq_error (bind_of_eq_error h)]
    exact hx e t h

/-- A check leaves the scope as it was, whatever it finds. -/
@[simp] theorem after_ofExcept (r : Except Error α) (s : Scope) : (MonadExcept.ofExcept r : Step α).after s = s := by
  cases r <;> rfl

/-- A check that changes nothing and a step after it. -/
theorem after_ofExcept_bind {r : Except Error α} (h : P s) (hf : ∀ a, P ((f a).after s)) :
    P ((MonadExcept.ofExcept r >>= f).after s) := by
  refine after_bind (fun e t he => ?_) fun a t ha => ?_
  · rw [← after_of_eq_error he, after_ofExcept]
    exact h
  · rw [← after_of_eq_ok ha, after_ofExcept]
    exact hf a

/-- The step keeps every scope that it starts from. -/
def IsSteady (x : Step α) : Prop := ∀ s : Scope, s.IsKeptIn (x.after s)

namespace IsSteady

/-- A check is steady. -/
theorem ofExcept (r : Except Error α) : IsSteady (MonadExcept.ofExcept r) := fun s => by
  rw [after_ofExcept]
  exact .refl s

theorem pure (a : α) : IsSteady (pure a : Step α) := Scope.IsKeptIn.refl

theorem throw (e : Error) : IsSteady (throw e : Step α) := Scope.IsKeptIn.refl

theorem get : IsSteady (get : Step Scope) := Scope.IsKeptIn.refl

/-- Steady steps one after the other are steady. -/
theorem bind (hx : IsSteady x) (hf : ∀ a, IsSteady (f a)) : IsSteady (x >>= f) := fun s => by
  refine after_bind (fun e t he => ?_) fun a t ha => ?_
  · exact after_of_eq_error he ▸ hx s
  · exact .trans (after_of_eq_ok ha ▸ hx s) (hf a t)

end IsSteady
end Step

section Fragment

variable {cat : Catalog} {base s s' : Scope} {t : Triple} {p : Placement} {g g' : Growth} {ts : List Triple}

/-- A triple pattern that cannot be placed changes nothing. -/
theorem place_eq_error {e : Error} (h : place cat t s = .error e s') : s' = s := by
  unfold place at h
  split at h <;> cases h <;> rfl

/-- Placing a triple pattern keeps the scope, and the alias of the placement is none that was taken. -/
theorem Scope.IsKeptIn.place (h : base.IsKeptIn s) (hp : place cat t s = .ok p s') :
    base.IsKeptIn s' ∧ ∀ e ∈ p.slots, e.2.tableAlias ∉ base.aliases.taken := by
  obtain ⟨-, hof, hfree, htaken, hbindings, hconstants⟩ := place_eq_ok hp
  have hfresh : ∀ e ∈ p.slots, e.2.tableAlias ∉ s.aliases.taken := fun e he => by
    rw [hof.tableAlias_eq he]
    exact hfree
  refine ⟨h.trans ⟨?_, ?_, fun a ha => ?_⟩, fun e he hmem => hfresh e he (h.taken.subset hmem)⟩
  · rw [hbindings]
    exact s.bindings.isKeptIn_bindAll p.columns
  · rw [htaken]
    exact List.prefix_append ..
  · rw [hconstants]
    refine Constants.under_addAll_of_ne fun e he hea => hfresh _ (Placement.mem_constants.1 he) ?_
    exact hea ▸ ha

/-- The tables of the fragment have new aliases. -/
def Growth.IsNew (base : Scope) (g : Growth) : Prop :=
  ∀ e ∈ g.fragment.columns, e.2.tableAlias ∉ base.aliases.taken

/-- **A join keeps what was there before the fragment:** the constants that it takes wait under new aliases. -/
theorem Scope.IsKeptIn.join (h : base.IsKeptIn s) (hg : g.IsNew base)
    (hp : ∀ e ∈ p.slots, e.2.tableAlias ∉ base.aliases.taken) :
    base.IsKeptIn (g.join p s).2 ∧ (g.join p s).1.IsNew base := by
  have hnew : (g.join p s).1.IsNew base := fun e he => by
    rcases mem_addColumns.1 he with he | he
    · exact hg e he
    · exact hp _ (Placement.mem_columns.1 he)
  refine ⟨⟨h.bindings, h.taken, fun a ha => ?_⟩, hnew⟩
  have hnot : a ∉ (g.columnsWith p).map (·.2.tableAlias) := fun hmem => by
    obtain ⟨e, he, rfl⟩ := List.mem_map.1 hmem
    exact hnew e he ha
  change (s.constants.takeAll ((g.columnsWith p).map (·.2.tableAlias))).2.under a = _
  rw [Constants.under_takeAll, if_neg hnot]
  exact h.constants a ha

/-- **Joining keeps what was known before the graph pattern,** at every join that is reached; the tables that have
joined are new. -/
theorem joinEach_isKeptIn (h : base.IsKeptIn s) (hg : g.IsNew base) :
    base.IsKeptIn ((Growth.joinEach cat g ts).after s) := by
  induction ts generalizing g s with
  | nil => exact h
  | cons t ts ih =>
    refine Step.after_bind (fun e s₁ he => place_eq_error he ▸ h) fun p s₁ hp => ?_
    obtain ⟨hplace, hnew⟩ := h.place hp
    refine Step.after_bind (fun e s₂ he => nomatch he) fun g₁ s₂ hj => ?_
    obtain ⟨rfl, rfl⟩ := Prod.ext_iff.1 (Step.modifyGet_eq_ok.1 hj)
    obtain ⟨hjoin, hnew'⟩ := hplace.join hg hnew
    exact ih hjoin hnew'

/-- **Compiling a graph pattern keeps the scope,** whether it succeeds or fails. -/
theorem fragment_isSteady (cat : Catalog) (gp : GraphPattern) : (fragment cat gp).IsSteady := fun s => by
  unfold fragment
  split
  · exact Step.IsSteady.throw _ s
  · refine Step.after_ofExcept_bind (.refl s) fun pending => ?_
    refine Step.after_bind (fun e s₁ he => place_eq_error he ▸ .refl s) fun p s₁ hp => ?_
    obtain ⟨hplace, hnew⟩ := (Scope.IsKeptIn.refl s).place hp
    refine Step.after_bind (fun e s₂ he => nomatch he) fun s₂ s₃ hget => ?_
    obtain ⟨rfl, rfl⟩ := Step.get_eq_ok.1 hget
    have hgrow : ∀ ts, s.IsKeptIn ((Growth.joinEach cat ⟨.single p, pending⟩ ts).after s₁) := fun ts =>
      joinEach_isKeptIn hplace fun e he => hnew _ (Placement.mem_columns.1 he)
    refine Step.after_bind (fun e s₂ he => Step.after_of_eq_error he ▸ hgrow _) fun g s₂ hg => ?_
    have hjoined : s.IsKeptIn s₂ := Step.after_of_eq_ok hg ▸ hgrow _
    refine hjoined.trans (Step.IsSteady.bind .get (fun t => ?_) s₂)
    split
    · exact .ofExcept _
    · exact .throw _

end Fragment

section Binding

variable {cat : Catalog} {gp : GraphPattern} {base s s' : Scope} {t : Triple} {p : Placement} {g g' : Growth}
  {ts : List Triple} {f : Fragment} {v : String} {c : Column}

/-- Some aliases are taken after those that were, each of them new and each once. -/
structure Scope.Takes (s : Scope) (as : List String) (s' : Scope) : Prop where
  taken : s'.aliases.taken = s.aliases.taken ++ as
  nodup : as.Nodup
  new : ∀ a ∈ as, a ∉ s.aliases.taken

/-- What two steps take is taken by both together, in this order. -/
theorem Scope.Takes.trans {u : Scope} {as bs : List String} (h : s.Takes as u) (h' : u.Takes bs s') :
    s.Takes (as ++ bs) s' := by
  have hnew : ∀ b ∈ bs, b ∉ s.aliases.taken ∧ b ∉ as := fun b hb => by
    have := h'.new b hb
    rwa [h.taken, List.mem_append, not_or] at this
  refine ⟨?_, h.nodup.append h'.nodup fun b ha hb => (hnew b hb).2 ha, fun b hb => ?_⟩
  · rw [h'.taken, h.taken, List.append_assoc]
  · rcases List.mem_append.1 hb with hb | hb
    · exact h.new b hb
    · exact (hnew b hb).1

/-- Placing a triple pattern takes one alias. -/
theorem place_takes (h : place cat t s = .ok p s') : s.Takes [p.aliasName] s' := by
  obtain ⟨-, -, hfree, htaken, -, -⟩ := place_eq_ok h
  exact ⟨htaken, List.nodup_singleton _, fun a ha => List.mem_singleton.1 ha ▸ hfree⟩

/-- A run takes an alias for each table that it joins. -/
theorem joinEach_takes (h : Growth.joinEach cat g ts s = .ok g' s') :
    ∃ as, s.Takes as s' ∧ g'.fragment.tree.aliases = g.fragment.tree.aliases ++ as := by
  induction ts generalizing g s with
  | nil =>
    obtain ⟨rfl, rfl⟩ := Step.pure_eq_ok.1 h
    exact ⟨[], ⟨by simp, .nil, nofun⟩, by simp⟩
  | cons t ts ih =>
    simp only [Growth.joinEach, Step.bind_eq_ok, Step.modifyGet_eq_ok] at h
    obtain ⟨p, s₁, hp, g₁, s₂, hj, h⟩ := h
    obtain ⟨rfl, rfl⟩ := Prod.ext_iff.1 hj
    obtain ⟨as, has, haliases⟩ := ih h
    refine ⟨p.aliasName :: as, ((place_takes hp).trans ⟨has.taken, has.nodup, has.new⟩), ?_⟩
    rw [haliases, Growth.tree_join, JoinTree.aliases_join, List.append_assoc]
    rfl

/-- The column of a variable of a triple pattern is its subject column if the subject is the variable. -/
theorem Placement.Of.eq_of_column? (hp : p.Of cat) (h : p.column? v = some c) :
    c = ⟨p.aliasName, if p.triple.subject = .var v then cat.subjectColumn else cat.objectColumn⟩ := by
  by_cases hs : p.triple.subject = .var v
  · have hfirst : p.column? v = some p.subject := by
      rw [column?, columns, slots, hs]
      exact List.lookup_cons_self
    rw [if_pos hs, ← hp.subject]
    exact Option.some.inj (h.symm.trans hfirst)
  · rw [if_neg hs, ← hp.object]
    rcases mem_slots.1 (mem_columns.1 (mem_columns_of_column? h)) with he | he
    · exact absurd (Prod.mk.inj he).1.symm hs
    · exact (Prod.mk.inj he).2

/-- What is found among the columns of placements is found in the first placement that has the variable. -/
theorem exists_first_of_lookup {ps : List Placement} (h : (ps.flatMap Placement.columns).lookup v = some c) :
    ∃ l p r, ps = l ++ p :: r ∧ (∀ q ∈ l, v ∉ q.triple.vars) ∧ p.column? v = some c := by
  induction ps with
  | nil => cases h
  | cons p ps ih =>
    rw [List.flatMap_cons, List.lookup_append, Option.or_eq_some_iff] at h
    rcases h with h | ⟨hnone, h⟩
    · exact ⟨[], p, ps, rfl, nofun, h⟩
    · obtain ⟨l, q, r, rfl, hl, hq⟩ := ih h
      refine ⟨p :: l, q, r, rfl, List.forall_mem_cons.2 ⟨fun hv => ?_, hl⟩, hq⟩
      obtain ⟨d, hd⟩ := Placement.mem_vars.1 hv
      exact absurd (List.lookup_eq_none_iff.1 hnone _ hd) (by simp)

/-- **What a graph pattern binds.** Its tables have new aliases. Its variables are bound after it and no others but those
that were bound before, each new one to its column in the first triple pattern, in joining order, that has it: to the
subject column there, or to the object column if it is not the subject. -/
structure Binds (cat : Catalog) (gp : GraphPattern) (base : Scope) (f : Fragment) (s : Scope) : Prop where
  takes : base.Takes f.tree.aliases s
  mem_vars : ∀ v, v ∈ s.bindings.vars ↔ v ∈ base.bindings.vars ∨ v ∈ gp.triples.flatMap Triple.vars
  column : ∀ v ∈ s.bindings.vars, v ∉ base.bindings.vars → ∃ l t r table,
    joinOrder base.bindings.vars gp = l ++ t :: r ∧ (∀ u ∈ l, v ∉ u.vars) ∧ v ∈ t.vars ∧
      f.tree.tables[l.length]? = some table ∧ cat.tableOf? t = some table.name ∧
      s.bindings.column? v =
        some ⟨table.aliasName, if t.subject = .var v then cat.subjectColumn else cat.objectColumn⟩

/-- **A graph pattern that compiles binds its variables.** -/
theorem fragment_binds (h : fragment cat gp base = .ok f s) : Binds cat gp base f s := by
  obtain ⟨t, ts, pending, first, s₁, g, hgp, -, hfirst, hg, hall, hfinish⟩ := fragment_eq_ok_iff.1 h
  obtain ⟨htriple, hof, -, -, hbindings, -⟩ := place_eq_ok hfirst
  obtain ⟨ps, hps, hpsof, hext⟩ := Extends.joinEach hg
  obtain ⟨htree, -⟩ := Growth.finish_eq_ok hfinish hext.leftover
  have horder : (first :: ps).map Placement.triple = joinOrder base.bindings.vars gp := by
    rw [List.map_cons, htriple, hps, joinOrder, hgp]
  have htables : f.tree.tables = (first :: ps).map Placement.table := by
    rw [htree, hext.tables]
    rfl
  have hbound : s.bindings = base.bindings.bindAll ((first :: ps).flatMap Placement.columns) := by
    rw [hext.bindings, hbindings, ← Bindings.bindAll_append, List.flatMap_cons]
  constructor
  case takes =>
    obtain ⟨as, has, haliases⟩ := joinEach_takes hg
    rw [htree, haliases]
    exact (place_takes hfirst).trans has
  case mem_vars =>
    intro v
    have hperm := (joinOrder_perm hgp hall).flatMap_right Triple.vars
    rw [hbound, Bindings.mem_vars_bindAll, ← hperm.mem_iff, ← horder, List.flatMap_map]
    simp only [List.mem_flatMap, Placement.mem_vars]
    exact or_congr_right (exists_comm.trans (exists_congr fun p => exists_and_left))
  case column =>
    intro v hv hnew
    obtain ⟨c, hc⟩ := Option.isSome_iff_exists.1 (Bindings.mem_vars.1 hv)
    have hnone : base.bindings.column? v = none := by
      rwa [Bindings.mem_vars, Bool.not_eq_true, Option.isSome_eq_false_iff, Option.isNone_iff_eq_none] at hnew
    have hlookup : ((first :: ps).flatMap Placement.columns).lookup v = some c := by
      rwa [hbound, Bindings.column?_bindAll, hnone, Option.none_or] at hc
    -- What is found under the variable belongs to the first placement that has it.
    obtain ⟨l, p, r, hsplit, hl, hp⟩ := exists_first_of_lookup hlookup
    have hpof : p.Of cat := List.forall_mem_cons.2 ⟨hof, hpsof⟩ p (hsplit ▸ List.mem_append_cons_self)
    refine ⟨l.map Placement.triple, p.triple, r.map Placement.triple, p.table, ?split, ?before, ?has, ?table,
      hpof.tableOf?_eq, ?column⟩
    case split => rw [← horder, hsplit, List.map_append, List.map_cons]
    case before => exact List.forall_mem_map.2 hl
    case has => exact Placement.mem_vars.2 ⟨c, Placement.mem_columns_of_column? hp⟩
    case table =>
      rw [htables, hsplit, List.map_append, List.length_map, List.getElem?_append_right (by simp)]
      simp
    case column =>
      rw [hc, hpof.eq_of_column? hp]
      rfl

end Binding

section Run

variable {cat : Catalog} {targets : List String} {ordering : Option (String × Direction)}

/-- A required element keeps what was known, also if it is refused as detached. -/
theorem requireElement_isSteady (a? : Option Assembly) (e : Element) : (requireElement cat a? e).IsSteady := by
  refine .bind (.ofExcept _) fun gp => .bind (fragment_isSteady cat gp) fun f => ?_
  cases a? with
  | none => exact .pure _
  | some a => exact .bind .get fun s => .ofExcept _

/-- So do required elements, up to the first that fails. -/
theorem requireEach_isSteady (a? : Option Assembly) (es : List Element) : (requireEach cat a? es).IsSteady := by
  induction es generalizing a? with
  | nil => exact .pure _
  | cons e es ih => exact .bind (requireElement_isSteady a? e) fun a => ih (some a)

/-- **An optional element keeps the scope:** the bindings that it was compiled with are put back, and the constants that
it takes wait under its own aliases. -/
theorem allowElement_isSteady (a : Assembly) (e : Element) : (allowElement cat a e).IsSteady := fun s => by
  refine Step.after_ofExcept_bind (.refl s) fun gp => ?_
  refine Step.after_bind (fun e t he => nomatch he) fun s₁ s₂ hget => ?_
  obtain ⟨rfl, rfl⟩ := Step.get_eq_ok.1 hget
  have hsteady := fragment_isSteady cat gp s
  refine Step.after_bind (fun e t he => Step.after_of_eq_error he ▸ hsteady) fun f t hf => ?_
  have hkept : s.IsKeptIn t := Step.after_of_eq_ok hf ▸ hsteady
  have hput : s.IsKeptIn { t with bindings := s.bindings, constants := (t.constants.takeAll f.tree.aliases).2 } := by
    refine ⟨fun _ _ hv => hv, hkept.taken, fun a ha => ?_⟩
    have hnot : a ∉ f.tree.aliases := fun hmem => (fragment_binds hf).takes.new a hmem ha
    change (t.constants.takeAll f.tree.aliases).2.under a = _
    rw [Constants.under_takeAll, if_neg hnot]
    exact hkept.constants a ha
  refine Step.after_bind (fun e u he => nomatch he) fun u u' hget => ?_
  obtain ⟨rfl, rfl⟩ := Step.get_eq_ok.1 hget
  refine Step.after_bind (fun e u he => nomatch he) fun constants u hu => ?_
  obtain ⟨-, rfl⟩ := Prod.ext_iff.1 (Step.modifyGet_eq_ok.1 hu)
  exact hput.trans (Step.IsSteady.bind (.ofExcept _) (fun _ => .pure _) _)

/-- Optional elements keep what was known, up to the first that fails. -/
theorem allowEach_isSteady (a : Assembly) (all : Bindings) (es : List Element) :
    (allowEach cat a all es).IsSteady := by
  induction es generalizing a all with
  | nil => exact .pure _
  | cons e es ih => exact .bind (allowElement_isSteady a e) fun r => ih r.1 _

/-- The bindings of all elements grow. -/
theorem allowEach_isKeptIn {a a' : Assembly} {all all' : Bindings} {es : List Element} {s s' : Scope}
    (h : allowEach cat a all es s = .ok (a', all') s') : all.IsKeptIn all' := by
  induction es generalizing a all s with
  | nil =>
    obtain ⟨h, -⟩ := Step.pure_eq_ok.1 h
    cases h
    exact fun _ _ hv => hv
  | cons e es ih =>
    obtain ⟨⟨a₁, own⟩, s₁, -, h₂⟩ := Step.bind_eq_ok.1 h
    exact fun v c hv => ih h₂ v c (all.isKeptIn_bindAll own.entries v c hv)

/-- What is left to do when all elements are joined. -/
def closing (targets : List String) (ordering : Option (String × Direction)) (r : Assembly × Bindings) :
    Step Statement := do
  let select ← MonadExcept.ofExcept (targets.mapM (targetColumn r.2))
  let ordering ← MonadExcept.ofExcept (orderColumn r.2 ordering)
  let conditions := Condition.pushAll (← get).constants.conditions r.1.residual
  return { select, tables := r.1.tree, conditions, ordering }

/-- What is left to do when the required elements are joined. -/
def continuing (cat : Catalog) (optional : List Element) (targets : List String)
    (ordering : Option (String × Direction)) (a? : Option Assembly) : Step Statement :=
  match a? with
  | none => throw .emptyQuery
  | some a => do allowEach cat a (← get).bindings optional >>= closing targets ordering

/-- A statement is made of its required elements and of what follows them. -/
theorem statement_eq_bind (q : Query) : statement cat q targets ordering =
    requireEach cat none q.required >>= continuing cat q.optional targets ordering := by
  unfold statement
  refine congrArg _ (funext fun a? => ?_)
  cases a? <;> rfl

/-- Looking up targets and ordering changes nothing. -/
theorem closing_isSteady (r : Assembly × Bindings) : (closing targets ordering r).IsSteady :=
  .bind (.ofExcept _) fun _ => .bind (.ofExcept _) fun _ => .bind .get fun _ => .pure _

/-- What follows the required elements keeps what they left. -/
theorem continuing_isSteady (optional : List Element) (a? : Option Assembly) :
    (continuing cat optional targets ordering a?).IsSteady := by
  cases a? with
  | none => exact .throw _
  | some a => exact .bind .get fun s => .bind (allowEach_isSteady a _ optional) closing_isSteady

end Run

/-- **Compiling never disturbs what was bound before.** A graph pattern keeps the scope that it is compiled in, and if
it compiles it binds its variables. In a whole run, what is known after some of the required elements is known at the
end, and what is known after some of the optional ones, too, while the bindings of all elements only grow. -/
theorem compiling_keeps (cat : Catalog) :
    (∀ (gp : GraphPattern) (base : Scope), base.IsKeptIn ((fragment cat gp).after base) ∧
      ∀ f s, fragment cat gp base = .ok f s → Binds cat gp base f s) ∧
    ∀ (q : Query) (targets : List String) (ordering : Option (String × Direction)) (s : Scope),
      (∀ l r a? t, q.required = l ++ r → requireEach cat none l s = .ok a? t →
        t.IsKeptIn ((statement cat q targets ordering).after s)) ∧
      ∀ core s₁, requireEach cat none q.required s = .ok (some core) s₁ →
        ∀ l r a all t, q.optional = l ++ r → allowEach cat core s₁.bindings l s₁ = .ok (a, all) t →
          t.IsKeptIn ((statement cat q targets ordering).after s) ∧
            ∀ a' all' t', allowEach cat core s₁.bindings q.optional s₁ = .ok (a', all') t' → all.IsKeptIn all' := by
  refine ⟨fun gp base => ⟨fragment_isSteady cat gp base, fun f s => fragment_binds⟩, fun q targets ordering s => ?_⟩
  rw [statement_eq_bind]
  constructor
  · intro l r a? t hq hl
    have hrest : (requireEach cat a? r >>= continuing cat q.optional targets ordering).IsSteady :=
      .bind (requireEach_isSteady a? r) (continuing_isSteady q.optional)
    rw [hq, requireEach_append, bind_assoc, Step.after, Step.bind_of_eq_ok hl]
    exact hrest t
  · intro core s₁ hcore l r a all t hq hl
    have hrest : (allowEach cat a all r >>= closing targets ordering).IsSteady :=
      .bind (allowEach_isSteady a all r) closing_isSteady
    have hsplit : allowEach cat core s₁.bindings q.optional s₁ = allowEach cat a all r t := by
      rw [hq, allowEach_append]
      exact Step.bind_of_eq_ok hl
    constructor
    · have hrun : (requireEach cat none q.required >>= continuing cat q.optional targets ordering) s =
          (allowEach cat a all r >>= closing targets ordering) t := by
        rw [Step.bind_of_eq_ok hcore, continuing, Step.bind_of_eq_ok (Step.get_eq_ok.2 ⟨rfl, rfl⟩), hq,
          allowEach_append, bind_assoc, Step.bind_of_eq_ok hl]
      rw [Step.after, hrun]
      exact hrest t
    · intro a' all' t' hall
      exact allowEach_isKeptIn (hsplit.symm.trans hall)

/-- The first graph pattern of `friends` starts from nothing known; its required part and its optional one each leave
a scope that is kept to the end. -/
theorem Session.friends_keeps :
    (∃ gp f s, fragment friends.catalog gp {} = .ok f s ∧ Binds friends.catalog gp {} f s) ∧
      ∃ core s a all s', requireEach friends.catalog none friends.query.required {} = .ok (some core) s ∧
        allowEach friends.catalog core s.bindings friends.query.optional s = .ok (a, all) s' ∧
        s.IsKeptIn ((statement friends.catalog friends.query friends.targets friends.ordering).after {}) ∧
        s'.IsKeptIn ((statement friends.catalog friends.query friends.targets friends.ordering).after {}) := by
  obtain ⟨st, hbuild⟩ := exists_build_friends
  obtain ⟨-, scope, hs⟩ := Session.build_eq_ok hbuild
  obtain ⟨core, s, a, all, hrequire, hallow, -⟩ := statement_eq_ok_iff.1 hs
  obtain ⟨hfragment, hrun⟩ := compiling_keeps friends.catalog
  obtain ⟨hrequired, hoptional⟩ := hrun friends.query friends.targets friends.ordering {}
  constructor
  · obtain ⟨a₁, s₁, hfirst, -⟩ := Step.bind_eq_ok.1 hrequire
    obtain ⟨gp, f, -, hf, -⟩ := requireElement_none_eq_ok hfirst
    exact ⟨gp, f, s₁, hf, (hfragment gp {}).2 f s₁ hf⟩
  · refine ⟨core, s, a, all, scope, hrequire, hallow, ?_, ?_⟩
    · exact hrequired friends.query.required [] _ _ (List.append_nil _).symm hrequire
    · exact (hoptional core s hrequire friends.query.optional [] a all scope (List.append_nil _).symm hallow).1

end Compile
end TripleSql
