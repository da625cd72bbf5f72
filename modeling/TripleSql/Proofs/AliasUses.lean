/-
# The aliases that compiling takes

Compiling takes aliases where it places triple patterns, and nowhere else. So the aliases after a step are those after a
run of uses, of the predicates of the placed triple patterns in joining order: after a graph pattern exactly these
(`fragment_aliases`), after a whole statement some (`statement_aliases`). What is known of runs holds of statements
then; every alias is a numbered one of a table of the catalog (`exists_numbered_of_mem_aliases`).
-/

import TripleSql.Proofs.AliasRuns
import TripleSql.Proofs.Scoping

namespace TripleSql
namespace Catalog

/-- A use that succeeds is one of the run of the catalog. -/
theorem resolve_eq_ok_iff {c : Catalog} {a a' : Aliases} {n : Pattern.Node} {t : Sql.Table} :
    c.resolve a n = .ok (t, a') ↔ c.locator.use n a = (.ok t, a') := by
  cases h : c.locator.resolve n a <;> simp [resolve, Locator.use, h]

/-- What is taken is a numbered alias of a table of the catalog. -/
def OwnAliases (c : Catalog) (a : Aliases) : Prop :=
  ∀ b ∈ a.taken, ∃ t ∈ c.predicates.tables, ∃ k, b = numbered t k

/-- **A run takes numbered aliases** of tables of the catalog. -/
theorem ownAliases_run {c : Catalog} {a : Aliases} (h : c.OwnAliases a) (ns : List Pattern.Node) :
    c.OwnAliases (c.locator.run ns a).2 := by
  induction ns generalizing a with
  | nil => exact h
  | cons n ns ih =>
    refine ih fun b hb => ?_
    have huse := c.locator.use_spec n a
    generalize c.locator.use n a = r at huse hb
    obtain ⟨r, a'⟩ := r
    cases huse with
    | @mapped p table k hp _ =>
      rcases List.mem_append.1 hb with hb | hb
      · exact h b hb
      · refine ⟨table, ?_, k, List.mem_singleton.1 hb⟩
        change c.tableFor p = .ok table at hp
        unfold tableFor at hp
        split at hp
        · next t ht =>
          cases hp
          exact List.mem_map.2 ⟨_, mem_of_lookup ht, rfl⟩
        · cases hp
    | _ => exact h b hb

end Catalog

namespace Compile

open Pattern Sql

section Uses

variable {cat : Catalog} {s s' : Scope}

/-- Placing a triple pattern is a use of its predicate. -/
theorem place_aliases {t : Triple} {p : Placement} (h : place cat t s = .ok p s') :
    cat.locator.use t.predicate s.aliases = (.ok p.table, s'.aliases) := by
  unfold place at h
  split at h
  · cases h
  · cases h
  · next table aliases hr =>
    simp only [EStateM.Result.ok.injEq, Scope.foldl_record] at h
    obtain ⟨rfl, rfl⟩ := h
    exact Catalog.resolve_eq_ok_iff.1 hr

/-- Joining triple patterns is a run of uses. -/
theorem joinEach_aliases {g g' : Growth} {ts : List Triple} (h : Growth.joinEach cat g ts s = .ok g' s') :
    s'.aliases = (cat.locator.run (ts.map Triple.predicate) s.aliases).2 := by
  induction ts generalizing g s with
  | nil =>
    obtain ⟨-, rfl⟩ := Step.pure_eq_ok.1 h
    rfl
  | cons t ts ih =>
    simp only [Growth.joinEach, Step.bind_eq_ok, Step.modifyGet_eq_ok] at h
    obtain ⟨p, s₁, hp, g₁, s₂, hj, h⟩ := h
    have haliases : s₂.aliases = s₁.aliases := congrArg (·.2.aliases) hj.symm
    rw [ih h, haliases, List.map_cons, Catalog.Locator.run, place_aliases hp]

/-- **The aliases of a graph pattern are those of a run** of its predicates in joining order. -/
theorem fragment_aliases {gp : GraphPattern} {f : Fragment} (h : fragment cat gp s = .ok f s') :
    s'.aliases = (cat.locator.run ((joinOrder s.bindings.vars gp).map Triple.predicate) s.aliases).2 := by
  obtain ⟨t, ts, pending, first, s₁, g, hgp, -, hfirst, hg, -, -⟩ := fragment_eq_ok_iff.1 h
  rw [joinOrder, hgp, joinEach_aliases hg, List.map_cons, Catalog.Locator.run, place_aliases hfirst]

/-- Whatever runs go on from a scope to another one and from there to a third make one run. -/
theorem exists_run_trans {a b c : Catalog.Aliases} (hab : ∃ ns, b = (cat.locator.run ns a).2)
    (hbc : ∃ ns, c = (cat.locator.run ns b).2) : ∃ ns, c = (cat.locator.run ns a).2 := by
  obtain ⟨ns, rfl⟩ := hab
  obtain ⟨ms, rfl⟩ := hbc
  exact ⟨ns ++ ms, by rw [Catalog.Locator.run_append]⟩

/-- Required elements take aliases use by use. -/
theorem requireEach_aliases {a? a'? : Option Assembly} {es : List Element}
    (h : requireEach cat a? es s = .ok a'? s') : ∃ ns, s'.aliases = (cat.locator.run ns s.aliases).2 := by
  induction es generalizing a? s with
  | nil =>
    obtain ⟨-, rfl⟩ := Step.pure_eq_ok.1 h
    exact ⟨[], rfl⟩
  | cons e es ih =>
    obtain ⟨a₁, s₁, h₁, h₂⟩ := Step.bind_eq_ok.1 h
    refine exists_run_trans ?_ (ih h₂)
    cases a? with
    | none =>
      obtain ⟨gp, f, -, hf, -⟩ := requireElement_none_eq_ok h₁
      exact ⟨_, fragment_aliases hf⟩
    | some a =>
      obtain ⟨gp, f, -, hf, -⟩ := requireElement_some_eq_ok h₁
      exact ⟨_, fragment_aliases hf⟩

/-- Optional elements take aliases use by use. -/
theorem allowEach_aliases {a a' : Assembly} {all all' : Bindings} {es : List Element}
    (h : allowEach cat a all es s = .ok (a', all') s') : ∃ ns, s'.aliases = (cat.locator.run ns s.aliases).2 := by
  induction es generalizing a all s with
  | nil =>
    obtain ⟨-, rfl⟩ := Step.pure_eq_ok.1 h
    exact ⟨[], rfl⟩
  | cons e es ih =>
    obtain ⟨⟨a₁, own⟩, s₁, h₁, h₂⟩ := Step.bind_eq_ok.1 h
    obtain ⟨gp, f, t, -, hf, -, -, rfl⟩ := allowElement_eq_ok h₁
    have hrest := ih h₂
    exact exists_run_trans ⟨_, fragment_aliases hf⟩ hrest

/-- **All aliases of a statement are taken by uses of predicates,** whatever else compiling does. -/
theorem statement_aliases {q : Query} {targets : List String} {ordering : Option (String × Direction)}
    {st : Statement} (h : statement cat q targets ordering s = .ok st s') :
    ∃ ns, s'.aliases = (cat.locator.run ns s.aliases).2 := by
  obtain ⟨core, s₁, a, all, hrequire, hallow, -⟩ := statement_eq_ok_iff.1 h
  exact exists_run_trans (requireEach_aliases hrequire) (allowEach_aliases hallow)

/-- The aliases of a statement are those that compiling took. -/
theorem statement_taken {q : Query} {targets : List String} {ordering : Option (String × Direction)} {st : Statement}
    (h : statement cat q targets ordering {} = .ok st s') : s'.aliases.taken = st.tables.aliases := by
  obtain ⟨core, s₁, a, all, hrequire, hallow, -, -, htables, -⟩ := statement_eq_ok_iff.1 h
  obtain ⟨req, hreq⟩ := requireEach_eq_ok hrequire
  obtain ⟨opt, hopt⟩ := allowEach_eq_ok hreq.members (Extended.of_standing hreq) hallow
  rw [htables, hopt.aliases, hopt.taken]

end Uses

/-- **Every alias of a statement is a numbered one of a table of the catalog.** -/
theorem Session.exists_numbered_of_mem_aliases {S : Session} {st : Statement} (h : S.build.1 = .ok st) {b : String}
    (hb : b ∈ st.tables.aliases) : ∃ t ∈ S.catalog.predicates.tables, ∃ k, b = Catalog.numbered t k := by
  obtain ⟨-, s, hs⟩ := Session.build_eq_ok h
  obtain ⟨ns, hns⟩ := statement_aliases hs
  rw [← statement_taken hs, hns] at hb
  exact Catalog.ownAliases_run (fun _ hb => absurd hb List.not_mem_nil) ns b hb

end Compile
end TripleSql
