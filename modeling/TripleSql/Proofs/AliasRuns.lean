/-
# Runs of uses

Tables are used one after the other, some of the uses failing, since nothing was taken (`Locator.run`). Whatever tables
the predicates have, two of them the same or one of them called like a numbered alias of another:

* the search for an alias ends, and every use of a predicate with a table has one (`search_freeNumber`),
* a use that succeeds answers the table under its name or a numbered one, a use that fails takes nothing (`Use`),
* no alias is answered twice, and without a use that fails all other answers are the same (`Locator.run_spec`).

The search is a relation here, the taken aliases staying as they are: it stops at a free number and goes on from a taken
one. That it relates every start to an end says that the search ends.
-/

import TripleSql.Proofs.Freshness

namespace TripleSql
namespace Catalog

/-- **The search for a free number:** from a number whose alias is taken it goes on to the next one. -/
inductive Search (taken : List String) (table : String) : Nat → Nat → Prop
  | free {k : Nat} (h : numbered table k ∉ taken) : Search taken table k k
  | next {k n : Nat} (h : numbered table k ∈ taken) (hs : Search taken table (k + 1) n) : Search taken table k n

/-- An alias with a number before the start is not met, so it may be struck off. -/
theorem Search.of_erase {taken : List String} {table : String} {j k n : Nat} (hjk : j < k)
    (h : Search (taken.erase (numbered table j)) table k n) : Search taken table k n := by
  induction h with
  | free h =>
    exact .free fun hm => h ((List.mem_erase_of_ne fun he => hjk.ne' (numbered_injective table he)).2 hm)
  | next h _ ih => exact .next (List.mem_of_mem_erase h) (ih (by omega))

/-- **The search ends,** at the number that is found. -/
theorem search_freeNumber (taken : List String) (table : String) (k : Nat) :
    Search taken table k (freeNumber taken table k) := by
  fun_induction freeNumber taken table k with
  | case1 taken k h ih => exact .next h (.of_erase k.lt_succ_self ih)
  | case2 taken k h => exact .free h

/-- The alias of a table is its name, or its name with a number behind it. -/
theorem numbered_cases (table : String) (k : Nat) :
    numbered table k = table ∨ ∃ j : Nat, numbered table k = table ++ "_" ++ j.repr := by
  unfold numbered
  split
  · exact .inl rfl
  · exact .inr ⟨k, rfl⟩

variable {ε : Type}

/-- **What a use does** when some aliases are taken: what it answers, and what is taken after it. -/
inductive Use (l : Locator ε) (a : Aliases) : Pattern.Node → Except ε Sql.Table → Aliases → Prop
  | variable (name : String) : Use l a (.var name) (.error (l.refusal name)) a
  | unmapped {p : String} {e : ε} (h : l.tableFor p = .error e) : Use l a (.const p) (.error e) a
  | mapped {p table : String} {k : Nat} (h : l.tableFor p = .ok table) (hk : Search a.taken table (a.nextNumber p) k) :
    Use l a (.const p) (.ok ⟨table, numbered table k⟩) ⟨(p, k + 1) :: a.next, a.taken ++ [numbered table k]⟩

namespace Use

variable {l : Locator ε} {a a' : Aliases} {n : Pattern.Node} {t : Sql.Table} {e : ε}

/-- A use that fails takes nothing. -/
theorem eq_of_error (h : Use l a n (.error e) a') : a' = a := by
  cases h <;> rfl

/-- A use that succeeds has the table of its predicate. -/
theorem table (h : Use l a n (.ok t) a') : ∃ p, n = .const p ∧ l.tableFor p = .ok t.name := by
  cases h with
  | mapped h _ => exact ⟨_, rfl, h⟩

/-- An alias is the name of its table, or that name with a number behind it. -/
theorem aliasName (h : Use l a n (.ok t) a') :
    t.aliasName = t.name ∨ ∃ k : Nat, t.aliasName = t.name ++ "_" ++ k.repr := by
  cases h with
  | mapped _ _ => exact numbered_cases ..

end Use

/-- The alias of a use that succeeds. -/
def alias? (r : Except ε Sql.Table) : Option String := r.toOption.map Sql.Table.aliasName

namespace Locator

/-- The answer to a use, and what is taken after it. -/
def use (l : Locator ε) (n : Pattern.Node) (a : Aliases) : Except ε Sql.Table × Aliases :=
  match l.resolve n a with
  | .ok t a => (.ok t, a)
  | .error e a => (.error e, a)

/-- The answers to uses, one after the other, and what is taken after all of them. -/
def run (l : Locator ε) : List Pattern.Node → Aliases → List (Except ε Sql.Table) × Aliases
  | [], a => ([], a)
  | n :: ns, a =>
    let r := l.use n a
    let rs := l.run ns r.2
    (r.1 :: rs.1, rs.2)

variable (l : Locator ε)

/-- **What one use does,** whatever it is asked for. -/
theorem use_spec (n : Pattern.Node) (a : Aliases) : Use l a n (l.use n a).1 (l.use n a).2 := by
  cases n with
  | var name => exact .variable name
  | const p =>
    cases h : l.tableFor p with
    | error e =>
      rw [use, resolve_of_error h]
      exact .unmapped h
    | ok table =>
      rw [use, resolve_of_ok h]
      exact .mapped h (search_freeNumber ..)

/-- What is taken after a use is what was taken before it and the alias that it answers, which was free. -/
theorem taken_use (n : Pattern.Node) (a : Aliases) :
    (l.use n a).2.taken = a.taken ++ (alias? (l.use n a).1).toList ∧ ∀ b ∈ alias? (l.use n a).1, b ∉ a.taken := by
  unfold use
  cases h : l.resolve n a with
  | error e a' =>
    have herror := l.use_spec n a
    rw [use, h] at herror
    exact ⟨by rw [herror.eq_of_error]; exact (List.append_nil _).symm, nofun⟩
  | ok t a' =>
    obtain ⟨-, -, -, hfree, htaken⟩ := resolve_eq_ok h
    exact ⟨htaken, fun b hb => Option.some.inj hb ▸ hfree⟩

/-- Uses one after the other go on with the aliases that were taken before. -/
theorem run_append (ns ms : List Pattern.Node) (a : Aliases) :
    l.run (ns ++ ms) a = ((l.run ns a).1 ++ (l.run ms (l.run ns a).2).1, (l.run ms (l.run ns a).2).2) := by
  induction ns generalizing a with
  | nil => rfl
  | cons n ns ih => rw [List.cons_append, run, ih, run, List.cons_append]

/-- Every use has an outcome. -/
theorem length_run (ns : List Pattern.Node) (a : Aliases) : (l.run ns a).1.length = ns.length := by
  induction ns generalizing a with
  | nil => rfl
  | cons n ns ih => rw [run, List.length_cons, ih, List.length_cons]

/-- What is taken after a run is what was taken before it and the aliases that it answers. -/
theorem taken_run (ns : List Pattern.Node) (a : Aliases) :
    (l.run ns a).2.taken = a.taken ++ (l.run ns a).1.filterMap alias? := by
  induction ns generalizing a with
  | nil => exact (List.append_nil _).symm
  | cons n ns ih =>
    rw [run, ih, (l.taken_use n a).1, List.append_assoc, List.filterMap_cons]
    cases alias? (l.use n a).1 <;> rfl

/-- **A run takes no alias twice.** -/
theorem nodup_run (ns : List Pattern.Node) {a : Aliases} (h : a.taken.Nodup) : (l.run ns a).2.taken.Nodup := by
  induction ns generalizing a with
  | nil => exact h
  | cons n ns ih =>
    refine ih ?_
    obtain ⟨htaken, hfree⟩ := l.taken_use n a
    rw [htaken]
    cases hn : alias? (l.use n a).1 with
    | none => rwa [Option.toList_none, List.append_nil]
    | some b =>
      refine h.append (List.nodup_singleton b) ?_
      exact List.disjoint_singleton.2 (hfree b hn)

/-- **What uses do,** from the first one on. Each of them does what a use does when the aliases of those before it are
taken, no alias is answered twice, and a use that fails leaves the others what they are without it. -/
theorem run_spec (ns : List Pattern.Node) :
    ((l.run ns {}).1.filterMap alias?).Nodup ∧
      ∀ pre n post, ns = pre ++ n :: post → ∃ r, (l.run ns {}).1[pre.length]? = some r ∧
        Use l (l.run pre {}).2 n r (l.run (pre ++ [n]) {}).2 ∧
        (∀ t, r = .ok t → (∃ p, n = .const p ∧ l.tableFor p = .ok t.name) ∧
          (t.aliasName = t.name ∨ ∃ k : Nat, t.aliasName = t.name ++ "_" ++ k.repr)) ∧
        ∀ e, r = .error e → l.run (pre ++ post) {} = ((l.run ns {}).1.eraseIdx pre.length, (l.run ns {}).2) := by
  refine ⟨?apart, ?each⟩
  case apart =>
    have htaken := l.taken_run ns {}
    rw [List.nil_append] at htaken
    exact htaken ▸ l.nodup_run ns List.nodup_nil
  case each =>
    rintro pre n post rfl
    have huse := l.use_spec n (l.run pre {}).2
    have hlength := l.length_run pre {}
    refine ⟨(l.use n (l.run pre {}).2).1, ?answer, ?use, fun t ht => ?table, fun e he => ?error⟩
    case answer =>
      rw [run_append, run, List.getElem?_append_right hlength.le, hlength, Nat.sub_self]
      rfl
    case use =>
      rw [run_append]
      exact huse
    case table =>
      rw [ht] at huse
      exact ⟨huse.table, huse.aliasName⟩
    case error =>
      rw [he] at huse
      rw [run_append, run_append, run, huse.eq_of_error, List.eraseIdx_append_of_length_le hlength.le, hlength,
        Nat.sub_self]
      rfl

/-- Predicates two of which share a table that a third one's is a numbered alias of. -/
def crossed : Locator String where
  tableFor p := (([("<a>", "t"), ("<b>", "t_1"), ("<c>", "t")].lookup p).map Except.ok).getD (.error p)
  refusal name := "?" ++ name

/-- Uses of all predicates of `crossed`, of a variable and of a predicate without a table. -/
def crossedUses : List Pattern.Node :=
  [.const "<b>", .const "<a>", .var "p", .const "<a>", .const "<c>", .const "<d>", .const "<b>"]

/-- Tables that are called like the aliases of others get aliases of their own, and a failing use changes no other. -/
theorem crossed_run : ((crossed.run crossedUses {}).1.filterMap alias?).Nodup ∧
    (crossed.run crossedUses {}).1.filterMap alias? = ["t_1", "t", "t_2", "t_3", "t_1_1"] ∧
    crossed.run (crossedUses.eraseIdx 2) {} =
      ((crossed.run crossedUses {}).1.eraseIdx 2, (crossed.run crossedUses {}).2) := by
  obtain ⟨hnodup, huse⟩ := run_spec crossed crossedUses
  obtain ⟨r, hr, -, -, herror⟩ := huse [.const "<b>", .const "<a>"] (.var "p") _ rfl
  have hp : r = .error "?p" := Option.some.inj (hr.symm.trans (by decide +kernel))
  exact ⟨hnodup, by decide +kernel, herror _ hp⟩

end Locator
end Catalog
end TripleSql
