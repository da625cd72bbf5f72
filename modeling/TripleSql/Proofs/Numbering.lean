/-
# Exact numbers

The number of an alias counts the uses of its predicate, as long as no alias is met that is taken:

| tables of `p`, `q` | uses | aliases | |
| --- | --- | --- | --- |
| `t`, `t_01` | `p q p q` | `t`, `t_01`, `t_1`, `t_01_1` | a number has no zeros in front |
| `t`, `t_1` | `q p p` | `t_1`, `t`, `t_2` | the number `1` of `p` is taken |
| `t`, `t` | `p q` | `t`, `t_1` | the number `0` of `q` is taken |

None is met if no two predicates share a table and no table is called like a table with a number behind it. Then the
numbered aliases of the tables are all different, since a numbered alias shows its table and its number
(`numbered_inj`), and a step of a run keeps that every predicate stands at the number of its uses (`Tally.use`). In any
other case some run meets one, so this is what numbering needs (`Locator.collisionFree_iff_numbered`).
-/

import TripleSql.Proofs.AliasRuns
import TripleSql.Proofs.Lists
import TripleSql.Proofs.Readable

namespace TripleSql
namespace Catalog

open Sql

theorem all_isDigit_repr (k : Nat) : k.repr.toList.all Char.isDigit = true := by
  rw [Nat.repr_eq_ofList_toDigits, String.toList_ofList, List.all_eq_true]
  exact fun c hc => Nat.isDigit_of_mem_toDigits (by decide) (by decide) hc

/-- A numbered alias that is no bare name shows its table and its number. -/
theorem numbered_inj {t u : String} {j k : Nat} (hj : j ≠ 0) (hk : k ≠ 0) (h : numbered t j = numbered u k) :
    t = u ∧ j = k := by
  rw [numbered, if_neg hj, numbered, if_neg hk] at h
  have hlist := congrArg (fun s => s.toList.reverse) h
  simp only [String.toList_append, List.reverse_append, List.append_assoc] at hlist
  -- Read from the end, the digits stop at the underscore.
  have hstop : ∀ (t : String) (c : Char), ("_".toList.reverse ++ t.toList.reverse).head? = some c → c.isDigit = false :=
    fun t c hc => Option.some.inj hc ▸ by decide
  have hdigits : ∀ k : Nat, k.repr.toList.reverse.all Char.isDigit = true := fun k => by
    rw [List.all_reverse]
    exact all_isDigit_repr k
  obtain ⟨hnumber, hname⟩ := append_inj_of_all (hdigits j) (hdigits k) (hstop t) (hstop u) hlist
  exact ⟨String.toList_inj.1 (List.reverse_injective (List.append_cancel_left hname)),
    Nat.repr_injective (String.toList_inj.1 (List.reverse_injective hnumber))⟩

namespace Locator

variable {ε : Type} {l : Locator ε} {a : Aliases} {p q t u table : String} {j k : Nat} {n : Pattern.Node}
  {ns : List Pattern.Node}

/-- A use whose next number is free takes the alias of that number. -/
theorem use_of_free (h : l.tableFor p = .ok table) (hfree : numbered table (a.nextNumber p) ∉ a.taken) :
    l.use (.const p) a = (.ok ⟨table, numbered table (a.nextNumber p)⟩,
      ⟨(p, a.nextNumber p + 1) :: a.next, a.taken ++ [numbered table (a.nextNumber p)]⟩) := by
  have hnumber : a.number p table = a.nextNumber p := by
    rw [Aliases.number, freeNumber, if_neg hfree]
  rw [use, resolve_of_ok h, Aliases.issue, hnumber]

/-- **No two predicates share a table, and no table is called like a table with a number behind it.** -/
structure CollisionFree (l : Locator ε) : Prop where
  predicate_ext : ∀ {p q t : String}, l.tableFor p = .ok t → l.tableFor q = .ok t → p = q
  ne_numbered : ∀ {p q t u : String} {k : Nat}, l.tableFor p = .ok t → l.tableFor q = .ok u → 1 ≤ k →
    u ≠ t ++ "_" ++ k.repr

/-- **Then an alias shows its predicate and its number.** -/
theorem CollisionFree.eq_of_numbered (h : l.CollisionFree) (hp : l.tableFor p = .ok t) (hq : l.tableFor q = .ok u)
    (he : numbered t j = numbered u k) : p = q ∧ j = k := by
  by_cases hj : j = 0 <;> by_cases hk : k = 0
  · subst hj hk
    obtain rfl : t = u := he
    exact ⟨h.predicate_ext hp hq, rfl⟩
  · rw [hj, numbered, if_pos rfl, numbered, if_neg hk] at he
    exact absurd he (h.ne_numbered hq hp (Nat.one_le_iff_ne_zero.2 hk))
  · rw [hk, numbered, if_neg hj, numbered, if_pos rfl] at he
    exact absurd he.symm (h.ne_numbered hp hq (Nat.one_le_iff_ne_zero.2 hj))
  · obtain ⟨rfl, rfl⟩ := numbered_inj hj hk he
    exact ⟨h.predicate_ext hp hq, rfl⟩

/-- **What is taken after some uses:** every predicate stands at the number of its uses, and the aliases are those of
the numbers before it. -/
structure Tally (l : Locator ε) (ns : List Pattern.Node) (a : Aliases) : Prop where
  nextNumber : ∀ {p t : String}, l.tableFor p = .ok t → a.nextNumber p = ns.count (.const p)
  taken : ∀ b ∈ a.taken, ∃ (p t : String) (k : Nat), l.tableFor p = .ok t ∧ k < ns.count (.const p) ∧ b = numbered t k

/-- The number at which a predicate stands is free. -/
theorem Tally.not_mem_taken (h : l.Tally ns a) (hl : l.CollisionFree) (hp : l.tableFor p = .ok t) :
    numbered t (a.nextNumber p) ∉ a.taken := by
  intro hmem
  obtain ⟨q, u, k, hq, hk, he⟩ := h.taken _ hmem
  obtain ⟨rfl, rfl⟩ := hl.eq_of_numbered hp hq he
  exact hk.ne (h.nextNumber hp)

/-- A use of no predicate with a table takes nothing and is not counted. -/
theorem Tally.of_not_mapped (h : l.Tally ns a) (hn : ∀ {q u}, l.tableFor q = .ok u → n ≠ .const q) :
    l.Tally (ns ++ [n]) a := by
  have hcount : ∀ {q u}, l.tableFor q = .ok u → (ns ++ [n]).count (.const q) = ns.count (.const q) := fun {q u} hq => by
    rw [List.count_append, List.count_singleton, beq_eq_false_iff_ne.2 (hn hq)]
    rfl
  refine ⟨fun hq => (h.nextNumber hq).trans (hcount hq).symm, fun b hb => ?_⟩
  obtain ⟨q, u, k, hq, hk, rfl⟩ := h.taken b hb
  exact ⟨q, u, k, hq, (hcount hq).symm ▸ hk, rfl⟩

/-- A use of a predicate with a table takes the alias of the number at which the predicate stands. -/
theorem Tally.of_mapped (h : l.Tally ns a) (hp : l.tableFor p = .ok t) : l.Tally (ns ++ [.const p])
    ⟨(p, a.nextNumber p + 1) :: a.next, a.taken ++ [numbered t (a.nextNumber p)]⟩ := by
  have hnext := h.nextNumber hp
  refine ⟨fun {q u} hq => ?_, fun b hb => ?_⟩
  · change (((p, a.nextNumber p + 1) :: a.next).lookup q).getD 0 = _
    rw [List.lookup_cons, List.count_append, List.count_singleton]
    by_cases hqp : q = p
    · subst hqp
      simp [hnext]
    · have hne : (Pattern.Node.const p == Pattern.Node.const q) = false :=
        beq_eq_false_iff_ne.2 fun he => hqp (Pattern.Node.const.inj he).symm
      rw [beq_eq_false_iff_ne.2 hqp, hne]
      exact h.nextNumber hq
  · rcases List.mem_append.1 hb with hb | hb
    · obtain ⟨q, u, k, hq, hk, rfl⟩ := h.taken b hb
      exact ⟨q, u, k, hq, hk.trans_le (List.Sublist.count_le _ (List.sublist_append_left ..)), rfl⟩
    · refine ⟨p, t, ns.count (.const p), hp, ?_, hnext ▸ List.mem_singleton.1 hb⟩
      rw [List.count_append, List.count_singleton_self]
      exact Nat.lt_succ_self _

/-- **One more use** is counted. -/
theorem Tally.use (h : l.Tally ns a) (hl : l.CollisionFree) (n : Pattern.Node) : l.Tally (ns ++ [n]) (l.use n a).2 := by
  cases n with
  | var name => exact h.of_not_mapped fun _ => nofun
  | const p =>
    cases hp : l.tableFor p with
    | error e =>
      rw [Locator.use, resolve_of_error hp]
      refine h.of_not_mapped fun {q u} hq he => ?_
      obtain rfl := Pattern.Node.const.inj he
      cases hp.symm.trans hq
    | ok t =>
      rw [use_of_free hp (h.not_mem_taken hl hp)]
      exact h.of_mapped hp

/-- **A run counts its uses.** -/
theorem tally_run (hl : l.CollisionFree) (ns : List Pattern.Node) : l.Tally ns (l.run ns {}).2 := by
  induction ns using List.reverseRecOn with
  | nil => exact ⟨fun _ => rfl, nofun⟩
  | append_singleton ns n ih =>
    rw [run_append]
    exact ih.use hl n

/-- The answer to a use of a run is that of the use when the aliases of those before it are taken. -/
theorem getElem?_run (l : Locator ε) (pre : List Pattern.Node) (n : Pattern.Node) (post : List Pattern.Node) :
    (l.run (pre ++ n :: post) {}).1[pre.length]? = some (l.use n (l.run pre {}).2).1 := by
  have hlength := l.length_run pre {}
  rw [run_append, run, List.getElem?_append_right hlength.le, hlength, Nat.sub_self]
  rfl

/-- What a use answers is not taken before it. -/
theorem not_mem_taken_of_use {s : Sql.Table} (h : (l.use n a).1 = .ok s) : s.aliasName ∉ a.taken := by
  refine (l.taken_use n a).2 _ ?_
  rw [h]
  rfl

/-- What a use of a run answers is taken after the run. -/
theorem mem_taken_of_use {pre : List Pattern.Node} {s : Sql.Table} (h : (l.use n (l.run pre {}).2).1 = .ok s)
    (post : List Pattern.Node) : s.aliasName ∈ (l.run (pre ++ n :: post) {}).2.taken := by
  rw [taken_run]
  refine List.mem_append_right _ (List.mem_filterMap.2 ⟨.ok s, ?_, rfl⟩)
  exact List.mem_of_getElem? (h ▸ getElem?_run l pre n post)

/-- **When aliases count the uses of their predicates.** Whatever is used since nothing was taken, and whichever uses
fail, a use of a predicate after `k` uses of it answers its table under the bare name for `k = 0` and under the name with
`_k` behind it otherwise: this is so exactly if no two predicates share a table and no table is called like a table
with a number behind it. -/
theorem collisionFree_iff_numbered (l : Locator ε) : l.CollisionFree ↔
    ∀ (pre post : List Pattern.Node) (p t : String) (k : Nat), l.tableFor p = .ok t → pre.count (.const p) = k →
      (l.run (pre ++ .const p :: post) {}).1[pre.length]? =
        some (.ok ⟨t, if k = 0 then t else t ++ "_" ++ k.repr⟩) := by
  constructor
  · rintro hl pre post p t k hp rfl
    have htally := tally_run hl pre
    rw [getElem?_run, use_of_free hp (htally.not_mem_taken hl hp), htally.nextNumber hp]
    rfl
  · intro h
    have huse : ∀ pre {p t}, l.tableFor p = .ok t →
        (l.use (.const p) (l.run pre {}).2).1 = .ok ⟨t, numbered t (pre.count (.const p))⟩ := fun pre p t hp =>
      Option.some.inj ((getElem?_run l pre (.const p) []).symm.trans (h pre [] p t _ hp rfl))
    have hfresh : ∀ pre {p t}, l.tableFor p = .ok t → numbered t (pre.count (.const p)) ∉ (l.run pre {}).2.taken :=
      fun pre p t hp => not_mem_taken_of_use (huse pre hp)
    -- The first use of a predicate takes the bare name, whatever comes after it.
    have hfirst : ∀ {q u}, l.tableFor q = .ok u → ∀ post, u ∈ (l.run (.const q :: post) {}).2.taken :=
      fun hq post => mem_taken_of_use (huse [] hq) post
    refine ⟨fun {p q t} hp hq => ?_, fun {p q t u k} hp hq hk hu => ?_⟩
    · by_contra hne
      have hcount : [Pattern.Node.const p].count (.const q) = 0 :=
        List.count_eq_zero.2 fun hm => hne (Pattern.Node.const.inj (List.mem_singleton.1 hm)).symm
      have := hfresh [.const p] hq
      rw [hcount] at this
      exact this (hfirst hp [])
    · have hnumber : u = numbered t k := hu.trans (if_neg (Nat.one_le_iff_ne_zero.1 hk)).symm
      have hne : q ≠ p := by
        rintro rfl
        obtain rfl := Except.ok.inj (hp.symm.trans hq)
        exact absurd (numbered_injective t (hnumber.symm.trans rfl : numbered t k = numbered t 0)) (by omega)
      have hcount : (Pattern.Node.const q :: List.replicate k (.const p)).count (.const p) = k := by
        rw [List.count_cons_of_ne fun he => hne (Pattern.Node.const.inj he), List.count_replicate_self]
      have := hfresh (.const q :: List.replicate k (.const p)) hp
      rw [hcount, ← hnumber] at this
      exact this (hfirst hq _)

end Locator

/-- The tables that a catalog answers are those of its predicates. -/
theorem locator_eq_ok {c : Catalog} {p t : String} :
    c.locator.tableFor p = .ok t ↔ c.predicates.get? p = some t := by
  change c.tableFor p = .ok t ↔ _
  rw [tableFor]
  cases c.predicates.get? p <;> simp

/-- A catalog is free of collisions if its tables are different and none is called like another one with a number. -/
theorem collisionFree_locator {c : Catalog} (hnodup : c.predicates.tables.Nodup)
    (hne : ∀ t ∈ c.predicates.tables, ∀ u ∈ c.predicates.tables, ∀ k : Nat, 1 ≤ k → u ≠ t ++ "_" ++ k.repr) :
    c.locator.CollisionFree where
  predicate_ext hp hq := congrArg Prod.fst (List.inj_on_of_nodup_map hnodup (mem_of_lookup (locator_eq_ok.1 hp))
    (mem_of_lookup (locator_eq_ok.1 hq)) rfl)
  ne_numbered hp hq hk := hne _ (List.mem_map.2 ⟨_, mem_of_lookup (locator_eq_ok.1 hp), rfl⟩) _
    (List.mem_map.2 ⟨_, mem_of_lookup (locator_eq_ok.1 hq), rfl⟩) _ hk

/-- A table that is called like the other one with a number behind it, but for a zero in front of the number. -/
def zeroed : Catalog where
  predicates := .ofPairs [("<knows>", "t"), ("<likes>", "t_01")]

theorem zeroed_numbered : zeroed.locator.CollisionFree ∧
    (zeroed.locator.run [.const "<likes>", .const "<knows>", .var "p", .const "<age>", .const "<knows>",
        .const "<likes>"] {}).1[4]? = some (.ok ⟨"t", "t_1"⟩) := by
  have htables : zeroed.predicates.tables = ["t", "t_01"] := by decide +kernel
  have hfree : zeroed.locator.CollisionFree := by
    refine collisionFree_locator (by decide +kernel) fun t ht u hu k _ he => ?_
    rw [htables] at ht hu
    simp only [List.mem_cons, List.not_mem_nil, or_false] at ht hu
    have hlength : u.length = t.length + 1 + k.repr.length := by
      rw [he, String.length_append, String.length_append]
      rfl
    have hone : "t".length = 1 := by decide
    have hfour : "t_01".length = 4 := by decide
    -- By length only `t_01` could be `t` with a number, and then the number would be written `01`.
    rcases ht with rfl | rfl <;> rcases hu with rfl | rfl
    · omega
    · have hzero : "t" ++ "_" ++ "01" = "t" ++ "_" ++ k.repr := he
      have hrepr : k.repr = "01" := ((String.append_right_inj _).1 hzero).symm
      have hk := congrArg (fun s => Nat.ofDigitChars 10 s.toList 0) hrepr
      simp only [Nat.toList_repr, Nat.ofDigitChars_toDigits (by decide : 1 < 10) le_rfl] at hk
      rw [hk] at hrepr
      exact absurd hrepr (by decide)
    · omega
    · omega
  exact ⟨hfree, (Locator.collisionFree_iff_numbered _).1 hfree [.const "<likes>", .const "<knows>", .var "p",
    .const "<age>"] [.const "<likes>"] "<knows>" "t" 1 (locator_eq_ok.2 (by decide +kernel)) (by decide +kernel)⟩

end Catalog
end TripleSql
