/-
# One graph pattern alone

A query of one graph pattern without filters compiles if every predicate has a table, every triple pattern is reached
and the targets are variables of the pattern (`Session.exists_build_lone`). Which tables the predicates have, and
whether two of them share one, does not matter: a free alias is always found.

The aliases are those of a run of the predicates in joining order. A query for the pairs that are related by all of some
predicates (`Session.relatedBy`) has all of its triple patterns reached at once, so they are joined as they stand and any
run of mapped predicates is that of a query.
-/

import TripleSql.Proofs.AliasUses
import TripleSql.Proofs.PatternAcceptance

namespace TripleSql
namespace Compile

open Pattern Sql

namespace Session

/-- A session with targets builds the statement of its query. -/
theorem build_of_statement {S : Session} {st : Statement} {s : Scope} (hne : S.targets ≠ [])
    (h : statement S.catalog S.query S.targets S.ordering {} = .ok st s) : S.build.1 = .ok st := by
  rw [build, if_neg hne, h]

/-- A query of one graph pattern. -/
def lone (cat : Catalog) (gp : GraphPattern) (targets : List String) : Session where
  catalog := cat
  query := { required := [.pattern gp] }
  targets := targets

/-- **A query of one graph pattern without filters compiles,** if every predicate has a table, every triple pattern is
reached and every target is a variable of the pattern. Its aliases are those of the predicates in joining order. -/
theorem exists_build_lone {cat : Catalog} {gp : GraphPattern} {targets : List String} {t : Triple} {ts : List Triple}
    (hgp : gp.triples = t :: ts) (hfilters : gp.filters = [])
    (hmapped : ∀ t ∈ gp.triples, (cat.tableOf? t).isSome = true) (hall : (arrange t.vars ts).2 = [])
    (hne : targets ≠ []) (hbound : ∀ v ∈ targets, v ∈ gp.triples.flatMap Triple.vars) :
    ∃ st, (lone cat gp targets).build.1 = .ok st ∧
      st.tables.aliases = (cat.locator.run ((joinOrder [] gp).map Triple.predicate) {}).2.taken := by
  have hnone : ∀ f, f ∉ gp.filters := fun f hf => List.not_mem_nil (hfilters ▸ hf)
  obtain ⟨f, s, hf⟩ := exists_fragment_of_isPlaced (s := {}) hgp hmapped (fun f hf => absurd hf (hnone f))
    (arrange_snd_eq_nil_iff.1 hall) fun f hf => absurd hf (hnone f)
  obtain ⟨x, hx⟩ := fragment_eq_ok Scope.fresh_empty hf
  have hcolumns : ∀ v ∈ targets, ∃ c, targetColumn s.bindings v = .ok c := fun v hv => by
    obtain ⟨u, hu, hvu⟩ := List.mem_flatMap.1 (hbound v hv)
    obtain ⟨p, hp, rfl⟩ := List.mem_map.1 (hx.triples ▸ hx.perm.symm.subset hu)
    obtain ⟨c, hc⟩ := Placement.mem_vars.1 hvu
    obtain ⟨d, hd⟩ := Option.isSome_iff_exists.1 (Piece.isSome_bindings_of_mem (Piece.mem_columns.2 ⟨p, hp, hc⟩))
    exact ⟨d, targetColumn_eq_ok.2 (hx.bindings ▸ hd)⟩
  obtain ⟨cs, hcs⟩ := exists_forall₂ hcolumns
  obtain ⟨st, hst⟩ : ∃ st, statement cat (lone cat gp targets).query targets none {} = .ok st s := by
    refine ⟨⟨cs, f.tree, _, none⟩, statement_eq_ok_iff.2
      ⟨.start f, s, .start f, s.bindings, ?_, rfl, mapM_eq_ok_except.2 hcs, rfl, rfl, rfl⟩⟩
    refine Step.bind_eq_ok.2 ⟨.start f, s, ?_, rfl⟩
    exact Step.bind_eq_ok.2 ⟨gp, {}, rfl, Step.bind_eq_ok.2 ⟨f, s, hf, rfl⟩⟩
  refine ⟨st, build_of_statement hne hst, ?_⟩
  rw [← statement_taken hst, fragment_aliases hf]
  rfl

/-- The triple pattern of the pairs that are related by a predicate. -/
def relation (predicate : String) : Triple := ⟨.var "x", .const predicate, .var "y"⟩

/-- A query for the pairs that are related by all of some predicates. -/
def relatedBy (cat : Catalog) (predicates : List String) : Session :=
  lone cat ⟨predicates.map relation, []⟩ ["x", "y"]

end Session

/-- Triple patterns that are reached from the start are joined in the order in which they stand. -/
theorem arrange_of_forall_reaches {known : List String} {ts : List Triple} (h : ∀ t ∈ ts, reaches known t = true) :
    arrange known ts = (ts, []) := by
  induction ts generalizing known with
  | nil => exact arrange_of_none rfl
  | cons t ts ih =>
    have ht := h t (List.mem_cons_self ..)
    have hrest : ∀ u ∈ ts, reaches (known ++ t.vars) u = true := fun u hu => by
      have hu := h u (List.mem_cons_of_mem _ hu)
      simp only [reaches, List.any_eq_true, List.contains_iff_mem] at hu ⊢
      obtain ⟨v, hv, hk⟩ := hu
      exact ⟨v, hv, List.mem_append_left _ hk⟩
    rw [arrange_of_some (List.find?_cons_of_pos ht), List.eraseP_cons_of_pos ht, ih hrest]

/-- **Every run of mapped predicates is that of a query.** -/
theorem Session.exists_build_relatedBy {cat : Catalog} {predicates : List String} (hne : predicates ≠ [])
    (hmapped : ∀ p ∈ predicates, (cat.predicates.get? p).isSome = true) :
    ∃ st, (relatedBy cat predicates).build.1 = .ok st ∧
      st.tables.aliases = (cat.locator.run (predicates.map .const) {}).2.taken := by
  obtain ⟨p, ps, rfl⟩ := List.exists_cons_of_ne_nil hne
  have harrange : arrange (relation p).vars (ps.map relation) = (ps.map relation, []) :=
    arrange_of_forall_reaches (List.forall_mem_map.2 fun _ _ => rfl)
  have horder : joinOrder [] ⟨(p :: ps).map relation, []⟩ = (p :: ps).map relation := by
    change relation p :: (arrange (relation p).vars (ps.map relation)).1 = _
    rw [harrange, List.map_cons]
  obtain ⟨st, hst, haliases⟩ : ∃ st, (relatedBy cat (p :: ps)).build.1 = .ok st ∧ _ :=
    exists_build_lone rfl rfl (List.forall_mem_map.2 hmapped) (congrArg (·.2) harrange) (List.cons_ne_nil _ _)
      fun v hv => List.mem_flatMap.2 ⟨relation p, List.mem_cons_self .., hv⟩
  refine ⟨st, hst, ?_⟩
  rw [haliases, horder, List.map_map]
  rfl

end Compile
end TripleSql
