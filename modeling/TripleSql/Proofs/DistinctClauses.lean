/-
# No clause says a thing twice

A statement has one clause for each join, at every depth of its join tree (`JoinTree.clauses`), and `WHERE`. Conditions
come to them on several ways: named by a join, taken from what waits, sent outside by a fragment, left over. Some of them
come twice, in one spelling or with the sides of an equality exchanged, and each way ends where conditions are pushed:

| clause | what is pushed |
| --- | --- |
| join inside a fragment | nodes, filters that are ready, constants that wait, and of these what reads the joined tables |
| join of a fragment | links, what the fragment sends outside, then its constants and its own filters |
| `WHERE` | the constants that still wait, then what was put aside |

So no clause has two equivalent conditions (`Session.build_distinct`).
-/

import TripleSql.Proofs.Representatives
import TripleSql.Proofs.Scoping

namespace TripleSql
namespace Sql

mutual

/-- The conditions of each join in a source. -/
def Source.clauses : Source → List (List Condition)
  | .table _ => []
  | .nested tree => tree.clauses

/-- The conditions of each join of a tree, those inside its sources among them. -/
def JoinTree.clauses : JoinTree → List (List Condition)
  | .base s => s.clauses
  | .join l _ r on => l.clauses ++ r.clauses ++ [on]

end

namespace JoinTree

/-- No join of the tree, at any depth, has two equivalent conditions. -/
def IsDistinct (t : JoinTree) : Prop := ∀ on ∈ t.clauses, Condition.Apart on

/-- A tree that tables or trees are joined to is free of equivalent conditions if all that is joined is. -/
theorem isDistinct_join {l : JoinTree} {kind : JoinKind} {r : Source} {on : List Condition} :
    (join l kind r on).IsDistinct ↔ l.IsDistinct ∧ (∀ cs ∈ r.clauses, Condition.Apart cs) ∧ Condition.Apart on := by
  simp only [IsDistinct, clauses, List.forall_mem_append, List.forall_mem_singleton, and_assoc]

/-- A tree with one more part repeats no condition if neither does, nor the clause between them. -/
theorem isDistinct_attach {t : JoinTree} {p : Part} :
    (t.attach p).IsDistinct ↔ t.IsDistinct ∧ p.tree.IsDistinct ∧ Condition.Apart p.on := isDistinct_join

end JoinTree
end Sql

namespace Compile

open Pattern Sql

section Run

variable {cat : Catalog} {g g' : Growth} {p : Placement} {ts : List Triple} {gp : GraphPattern} {f : Fragment}
  {kind : JoinKind} {more : List Condition} {b all all' : Bindings} {a a' : Assembly} {a? : Option Assembly}
  {e : Element} {es : List Element} {s s' : Scope}

/-- **One more join** inside a fragment has no two equivalent conditions. -/
theorem Growth.isDistinct_join (h : g.fragment.tree.IsDistinct) : (g.join p s).1.fragment.tree.IsDistinct := by
  rw [tree_join]
  exact JoinTree.isDistinct_join.2 ⟨h, nofun, (Condition.apart_distinct _).filter _⟩

/-- Joining one triple pattern after another repeats no condition in a clause. -/
theorem Growth.isDistinct_joinEach (h : joinEach cat g ts s = .ok g' s') (hg : g.fragment.tree.IsDistinct) :
    g'.fragment.tree.IsDistinct := by
  induction ts generalizing g s with
  | nil =>
    obtain ⟨rfl, -⟩ := Step.pure_eq_ok.1 h
    exact hg
  | cons t ts ih =>
    simp only [joinEach, Step.bind_eq_ok, Step.modifyGet_eq_ok] at h
    obtain ⟨p, s₁, -, g₁, s₂, hjoin, h⟩ := h
    obtain ⟨rfl, rfl⟩ := Prod.ext_iff.1 hjoin
    exact ih h (isDistinct_join hg)

/-- **A fragment has no join with two equivalent conditions.** -/
theorem isDistinct_of_fragment (h : fragment cat gp s = .ok f s') : f.tree.IsDistinct := by
  obtain ⟨t, ts, ⟨filters⟩, first, s₁, g, -, -, -, hg, -, hfinish⟩ := fragment_eq_ok_iff.1 h
  obtain ⟨ps, -, -, hext⟩ := Extends.joinEach hg
  obtain ⟨htree, -⟩ := Growth.finish_eq_ok hfinish hext.leftover
  rw [htree]
  exact Growth.isDistinct_joinEach hg nofun

/-- **A fragment that is joined** is joined on conditions of which no two are equivalent. -/
theorem Assembly.isDistinct_attach (h : a.attach kind more f b = .ok a') (ha : a.tree.IsDistinct)
    (hf : f.tree.IsDistinct) : a'.tree.IsDistinct := by
  rw [eq_of_attach h]
  exact JoinTree.isDistinct_attach.2 ⟨ha, hf, Condition.apart_pushAll (Condition.apart_distinct _) more⟩

/-- A required element repeats no condition in a clause. -/
theorem isDistinct_requireElement (h : requireElement cat a? e s = .ok a s') (ha : ∀ a ∈ a?, a.tree.IsDistinct) :
    a.tree.IsDistinct := by
  cases a? with
  | none =>
    obtain ⟨gp, f, -, hf, rfl⟩ := requireElement_none_eq_ok h
    exact isDistinct_of_fragment hf
  | some a₀ =>
    obtain ⟨gp, f, -, hf, hrequire⟩ := requireElement_some_eq_ok h
    exact Assembly.isDistinct_attach hrequire (ha a₀ rfl) (isDistinct_of_fragment hf)

/-- Required elements one after the other repeat no condition in a clause. -/
theorem isDistinct_requireEach (h : requireEach cat a? es s = .ok (some a) s') (ha : ∀ a ∈ a?, a.tree.IsDistinct) :
    a.tree.IsDistinct := by
  induction es generalizing a? s with
  | nil =>
    obtain ⟨rfl, -⟩ := Step.pure_eq_ok.1 h
    exact ha a rfl
  | cons e es ih =>
    obtain ⟨a₁, s₁, h₁, h₂⟩ := Step.bind_eq_ok.1 h
    refine ih h₂ fun a ha₁ => ?_
    obtain rfl := Option.some.inj ha₁
    exact isDistinct_requireElement h₁ ha

/-- Optional elements one after the other repeat no condition in a clause. -/
theorem isDistinct_allowEach (h : allowEach cat a all es s = .ok (a', all') s') (ha : a.tree.IsDistinct) :
    a'.tree.IsDistinct := by
  induction es generalizing a all s with
  | nil =>
    obtain ⟨h, -⟩ := Step.pure_eq_ok.1 h
    cases h
    exact ha
  | cons e es ih =>
    obtain ⟨⟨a₁, own⟩, s₁, h₁, h₂⟩ := Step.bind_eq_ok.1 h
    obtain ⟨gp, f, t, -, hf, -, hallow, -⟩ := allowElement_eq_ok h₁
    exact ih h₂ (Assembly.isDistinct_attach hallow ha (isDistinct_of_fragment hf))

end Run

/-- **Pushing leaves one condition of each class and loses nothing.** Conditions are equivalent in the sense of an
equivalence relation; pushed one by one, they end as the first ones of their classes, in order, and these say as much as
all of them under every reading in which `=` is symmetric. No join of a statement that compiles, at any depth, and not its
`WHERE` has two equivalent conditions. -/
theorem Session.build_distinct :
    (Equivalence fun c d : Condition => c.isEquivalent d = true) ∧
    (∀ cs : List Condition, cs.foldl Condition.push [] = Condition.firsts cs ∧
      ∀ {α : Type} (M : Reading α), (∀ c ∈ cs.foldl Condition.push [], M.Holds c) ↔ ∀ c ∈ cs, M.Holds c) ∧
    ∀ {S : Session} {st : Statement}, S.build.1 = .ok st →
      ∀ clause ∈ st.tables.clauses ++ [st.conditions], Condition.Apart clause := by
  refine ⟨Condition.equivalence_isEquivalent, fun cs => ⟨Condition.distinct_eq_firsts cs, fun M => ?_⟩, fun h => ?_⟩
  · exact M.forall_mem_distinct cs
  · obtain ⟨-, s, hstatement⟩ := build_eq_ok h
    obtain ⟨core, s₁, a, all, hrequire, hallow, -, -, htables, hconditions⟩ := statement_eq_ok_iff.1 hstatement
    rw [List.forall_mem_append, List.forall_mem_singleton, htables, hconditions]
    constructor
    · exact isDistinct_allowEach hallow (isDistinct_requireEach hrequire nofun)
    · exact Condition.apart_pushAll (Condition.apart_distinct _) _

/-- No clause of the statement of `friends` has two equivalent conditions. -/
theorem Session.friends_distinct : ∃ st, friends.build.1 = .ok st ∧
    ∀ clause ∈ st.tables.clauses ++ [st.conditions], Condition.Apart clause := by
  obtain ⟨st, h⟩ := exists_build_friends
  exact ⟨st, h, build_distinct.2.2 h⟩

end Compile
end TripleSql
