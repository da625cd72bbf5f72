/-
# Aliases as SQL compares them

Aliases that are plain names stand in the text without quotes, and SQL compares such names without regard to the case of
ASCII letters. No two aliases of a statement are the same, but two may differ in case only:

| tables of `p`, `q` | triple patterns | aliases |
| --- | --- | --- |
| `knows`, `Knows` | `p q` | `knows`, `Knows` |
| `knows`, `Knows_1` | `p p q` | `knows`, `knows_1`, `Knows_1` |
| `knows`, `knows_1` | `p p q` | `knows`, `knows_1`, `knows_1_1` |

The search for a free alias passes over the taken ones, and so over a table that is called like a numbered alias, as in
the last line; it compares letter by letter and sees nothing in the first two. The aliases of all statements on a catalog
are apart in SQL exactly if no table is called, but for case, like another one or like a numbered alias of another one
(`Session.forall_nodup_folded_iff`). An admitted catalog need not be so (`Session.capitals_not_nodup_folded`).
-/

import TripleSql.Proofs.LonePatterns
import TripleSql.Proofs.Numbering

namespace TripleSql

namespace Sql

/-- The name with small letters in place of ASCII capitals. -/
def folded (name : String) : String := String.ofList (name.toList.map Char.toLower)

/-- Letters are folded one by one. -/
theorem folded_append (m n : String) : folded (m ++ n) = folded m ++ folded n := by
  simp [folded]

end Sql

open Sql Pattern

namespace Catalog

/-- A number has no capitals. -/
theorem folded_repr (k : Nat) : folded k.repr = k.repr := by
  have hdigit : ∀ c ∈ k.repr.toList, c.toLower = c := fun c hc => by
    have hc := List.all_eq_true.1 (all_isDigit_repr k) c hc
    simp only [Char.isDigit, Bool.and_eq_true, decide_eq_true_eq] at hc
    rw [Char.toLower, dif_neg fun h => absurd (UInt32.le_trans h.1 hc.2) (by decide)]
  rw [folded, List.map_congr_left hdigit, List.map_id', String.ofList_toList]

/-- **A numbered alias in small letters** is the numbered alias of the table in small letters. -/
theorem folded_numbered (table : String) (k : Nat) : folded (numbered table k) = numbered (folded table) k := by
  unfold numbered
  split
  · rfl
  · rw [folded_append, folded_append, folded_repr]
    rfl

/-- **No table is called, but for case, like another one** or like a numbered alias of another one. -/
def CaseSafe (c : Catalog) : Prop :=
  ∀ t ∈ c.predicates.tables, ∀ u ∈ c.predicates.tables, ∀ k, folded u = folded (numbered t k) → u = numbered t k

/-- Where tables are apart in SQL, so are their aliases. -/
theorem CaseSafe.eq_of_folded {c : Catalog} (hc : c.CaseSafe) {t u : String} {j k : Nat}
    (ht : t ∈ c.predicates.tables) (hu : u ∈ c.predicates.tables)
    (h : folded (numbered t j) = folded (numbered u k)) : numbered t j = numbered u k := by
  by_cases hj : j = 0
  · subst hj
    exact hc u hu t ht k h
  · by_cases hk : k = 0
    · subst hk
      exact (hc t ht u hu j h.symm).symm
    · rw [folded_numbered, folded_numbered] at h
      obtain ⟨hfolded, rfl⟩ := numbered_inj hj hk h
      have hsame : t = u := hc u hu t ht 0 hfolded
      rw [hsame]

/-- Every table is that of a predicate. -/
theorem exists_get?_of_mem_tables {m : Predicates} {t : String} (h : t ∈ m.tables) : ∃ p, m.get? p = some t := by
  obtain ⟨e, he, rfl⟩ := List.mem_map.1 h
  exact ⟨e.1, Predicates.mem_entries_iff.1 he⟩

namespace Locator

variable {ε : Type} {l : Locator ε} {a : Aliases} {p table : String}

/-- **One predicate used again and again** takes the aliases of its table in order. -/
theorem run_replicate (h : l.tableFor p = .ok table) (n : Nat) :
    (l.run (List.replicate n (.const p)) {}).2.taken = (List.range n).map (numbered table) ∧
      ∀ q, (l.run (List.replicate n (.const p)) {}).2.nextNumber q = if q = p then n else 0 := by
  induction n with
  | zero => exact ⟨rfl, fun q => by rw [ite_self]; rfl⟩
  | succ n ih =>
    obtain ⟨htaken, hnext⟩ := ih
    rw [List.replicate_succ', run_append]
    generalize (l.run (List.replicate n (.const p)) {}).2 = a at htaken hnext ⊢
    have hn : a.nextNumber p = n := by rw [hnext, if_pos rfl]
    have hfree : numbered table (a.nextNumber p) ∉ a.taken := by
      rw [hn, htaken]
      intro hm
      obtain ⟨k, hk, he⟩ := List.mem_map.1 hm
      exact (List.mem_range.1 hk).ne (numbered_injective table he)
    change (l.use (.const p) a).2.taken = _ ∧ ∀ q, (l.use (.const p) a).2.nextNumber q = _
    rw [use_of_free h hfree, hn, htaken, List.range_succ, List.map_append]
    refine ⟨rfl, fun q => ?_⟩
    change (((p, n + 1) :: a.next).lookup q).getD 0 = _
    by_cases hq : q = p
    · simp [hq]
    · rw [List.lookup_cons, beq_eq_false_iff_ne.2 hq, if_neg hq]
      exact (hnext q).trans (if_neg hq)

end Locator

/-- **A name that SQL takes for another one is met:** if it is called, but for case, like the numbered alias of another
table, some uses take both. -/
theorem run_not_nodup_folded {c : Catalog} {p q t u : String} {k : Nat} (hp : c.predicates.get? p = some t)
    (hq : c.predicates.get? q = some u) (hfolded : folded u = folded (numbered t k)) (hne : u ≠ numbered t k) :
    ¬ ((c.locator.run (List.replicate (k + 1) (.const p) ++ [.const q]) {}).2.taken.map folded).Nodup := by
  have hnumber : ∀ {j}, u = numbered t j → j = k := fun {j} hj => by
    rw [hj, folded_numbered, folded_numbered] at hfolded
    exact numbered_injective _ hfolded
  have hqp : q ≠ p := by
    rintro rfl
    have hut : u = numbered t 0 := Option.some.inj (hq.symm.trans hp)
    exact hne (hnumber hut ▸ hut)
  obtain ⟨htaken, hnext⟩ := Locator.run_replicate (locator_eq_ok.2 hp) (k + 1)
  rw [Locator.run_append]
  generalize (c.locator.run (List.replicate (k + 1) (.const p)) {}).2 = a at htaken hnext ⊢
  have hfree : numbered u (a.nextNumber q) ∉ a.taken := by
    rw [hnext, if_neg hqp, htaken]
    intro hm
    obtain ⟨j, -, hj⟩ := List.mem_map.1 hm
    exact hne (hnumber hj.symm ▸ hj.symm)
  change ¬ ((c.locator.use (.const q) a).2.taken.map folded).Nodup
  rw [Locator.use_of_free (locator_eq_ok.2 hq) hfree, hnext, if_neg hqp, htaken, List.map_append]
  refine fun hnodup => List.disjoint_of_nodup_append hnodup ?_ (List.mem_singleton_self _)
  refine List.mem_map.2 ⟨numbered t k, List.mem_map.2 ⟨k, List.mem_range.2 k.lt_succ_self, rfl⟩, hfolded.symm⟩

end Catalog

namespace Compile

/-- **When aliases are apart as SQL compares them:** the aliases of all statements on a catalog are, whatever is asked
for, exactly if no table of it is called, but for case, like another one or like a numbered alias of another one. -/
theorem Session.forall_nodup_folded_iff (cat : Catalog) :
    (∀ (S : Session) (st : Statement), S.catalog = cat → S.build.1 = .ok st →
      (st.tables.aliases.map folded).Nodup) ↔ cat.CaseSafe := by
  constructor
  · intro h t ht u hu k hfolded
    by_contra hne
    obtain ⟨p, hp⟩ := Catalog.exists_get?_of_mem_tables ht
    obtain ⟨q, hq⟩ := Catalog.exists_get?_of_mem_tables hu
    have hmapped : ∀ r ∈ List.replicate (k + 1) p ++ [q], (cat.predicates.get? r).isSome = true := fun r hr => by
      rcases List.mem_append.1 hr with hr | hr
      · rw [List.eq_of_mem_replicate hr, hp, Option.isSome_some]
      · rw [List.mem_singleton.1 hr, hq, Option.isSome_some]
    obtain ⟨st, hst, haliases⟩ := exists_build_relatedBy (by simp) hmapped
    have hnodup := h _ st rfl hst
    rw [haliases, List.map_append, List.map_replicate] at hnodup
    exact Catalog.run_not_nodup_folded hp hq hfolded hne hnodup
  · rintro hcat S st rfl hst
    obtain ⟨-, s, hs⟩ := build_eq_ok hst
    obtain ⟨req, opt, hc⟩ := statement_eq_ok hs
    refine hc.laidOut.nodup.map_on fun b hb b' hb' hfolded => ?_
    obtain ⟨t, ht, j, rfl⟩ := exists_numbered_of_mem_aliases hst hb
    obtain ⟨u, hu, k, rfl⟩ := exists_numbered_of_mem_aliases hst hb'
    exact hcat.eq_of_folded ht hu hfolded

/-- Tables without an underscore that differ in more than case are apart in SQL. -/
theorem Session.friends_nodup_folded : friends.catalog.CaseSafe ∧
    ∃ st, friends.build.1 = .ok st ∧ (st.tables.aliases.map folded).Nodup := by
  have hsafe : friends.catalog.CaseSafe := fun t ht u hu k hfolded => by
    have hnone : ∀ u ∈ friends.catalog.predicates.tables, '_' ∉ (folded u).toList := by decide +kernel
    have hbare : ∀ t ∈ friends.catalog.predicates.tables, ∀ u ∈ friends.catalog.predicates.tables,
        folded u = folded t → u = t := by decide +kernel
    by_cases hk : k = 0
    · subst hk
      exact hbare t ht u hu hfolded
    · refine absurd ?_ (hnone u hu)
      rw [hfolded, Catalog.folded_numbered, Catalog.numbered, if_neg hk]
      simp
  obtain ⟨st, hst⟩ := exists_build_friends
  exact ⟨hsafe, st, hst, (forall_nodup_folded_iff _).2 hsafe friends st rfl hst⟩

/-- Who knows two and trusts one, where trust is kept in a table that is called like the second alias of the other one
with a capital. -/
def Session.capitals : Session :=
  lone { predicates := .ofPairs [("<knows>", "knows"), ("<trusts>", "Knows_1")] }
    ⟨[⟨.var "x", .const "<knows>", .var "y"⟩, ⟨.var "x", .const "<knows>", .var "z"⟩,
      ⟨.var "x", .const "<trusts>", .var "w"⟩], []⟩ ["x"]

/-- Two tables that differ in the case of letters get aliases that differ in nothing else, and neither is quoted. -/
theorem Session.capitals_not_nodup_folded : capitals.catalog.check = .ok () ∧
    ∃ st, capitals.build.1 = .ok st ∧ st.tables.aliases = ["knows", "knows_1", "Knows_1"] ∧
      (∀ a ∈ st.tables.aliases, quoteName a = a) ∧ ¬ (st.tables.aliases.map folded).Nodup := by
  obtain ⟨st, hst⟩ := exists_build (S := capitals) (by decide +kernel)
  have haliases : st.tables.aliases = ["knows", "knows_1", "Knows_1"] :=
    eq_of_build hst (·.tables.aliases) (by decide +kernel)
  refine ⟨by decide +kernel, st, hst, haliases, ?_⟩
  rw [haliases]
  decide +kernel

end Compile
end TripleSql
