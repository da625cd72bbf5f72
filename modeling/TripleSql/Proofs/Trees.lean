/-
# Join trees and their parts

All conditions of a tree are those of its joins at every depth (`JoinTree.conditions`). A tree is well scoped if a join
reads no table but those to its left and the ones that it joins; in a nested tree these are tables of the nested tree.

The tree of a statement is a chain of tables, joined by inner joins, to which nested trees are joined one after the
other. Cut at these joins it has one part for each nested tree and one for the chain (`JoinTree.parts`).
-/

import TripleSql.Proofs.Conditions

namespace TripleSql
namespace Sql

mutual

/-- The conditions of all joins in a source. -/
def Source.conditions : Source → List Condition
  | .table _ => []
  | .nested tree => tree.conditions

/-- The conditions of all joins of a tree, those inside its sources among them. -/
def JoinTree.conditions : JoinTree → List Condition
  | .base s => s.conditions
  | .join l _ r on => l.conditions ++ r.conditions ++ on

end

namespace Source

/-- The aliases of the tables of a source, left to right. -/
def aliases (s : Source) : List String := s.tables.map (·.aliasName)

end Source

mutual

/-- Every join in a source reads tables in its scope. -/
def Source.WellScoped : Source → Prop
  | .table _ => True
  | .nested tree => tree.WellScoped

/-- Every join of a tree, at any depth, reads tables to its left in its own tree and tables that it joins. -/
def JoinTree.WellScoped : JoinTree → Prop
  | .base s => s.WellScoped
  | .join l _ r on =>
    l.WellScoped ∧ r.WellScoped ∧ ∀ c ∈ on, ∀ a ∈ c.aliases, a ∈ l.aliases ++ r.aliases

end

mutual

/-- Every join in a source is an inner one. -/
def Source.IsInner : Source → Prop
  | .table _ => True
  | .nested tree => tree.IsInner

/-- Every join of a tree, at any depth, is an inner one. -/
def JoinTree.IsInner : JoinTree → Prop
  | .base s => s.IsInner
  | .join l kind r _ => l.IsInner ∧ kind = .inner ∧ r.IsInner

end

/-- A tree in parentheses, how it is joined to what stands before it, and on what. -/
structure Part where
  kind : JoinKind
  tree : JoinTree
  on : List Condition
deriving DecidableEq, Repr

namespace Part

/-- The aliases of the tables of a part. -/
def aliases (p : Part) : List String := p.tree.aliases

/-- The conditions inside a part and those that it is joined on. -/
def conditions (p : Part) : List Condition := p.tree.conditions ++ p.on

end Part

namespace JoinTree

/-- The tree with a part joined to it. -/
def attach (t : JoinTree) (p : Part) : JoinTree := .join t p.kind (.nested p.tree) p.on

/-- The nested trees that are joined at the end of a tree, and before them what is left of it. -/
def parts : JoinTree → List Part
  | .join l kind (.nested tree) on => l.parts ++ [⟨kind, tree, on⟩]
  | t => [⟨.inner, t, []⟩]

/-- Tables, joined by inner joins. -/
def IsChain : JoinTree → Prop
  | .base (.table _) => True
  | .join l .inner (.table _) _ => l.IsChain
  | _ => False

/-- A part that is attached is the last one. -/
theorem parts_attach (t : JoinTree) (p : Part) : (t.attach p).parts = t.parts ++ [p] := rfl

/-- Parts that are attached one after the other come in this order. -/
theorem parts_foldl_attach (ps : List Part) (t : JoinTree) : (ps.foldl attach t).parts = t.parts ++ ps := by
  induction ps generalizing t with
  | nil => rw [List.foldl_nil, List.append_nil]
  | cons p ps ih => rw [List.foldl_cons, ih, parts_attach, List.append_assoc]; rfl

/-- A chain of tables is one part. -/
theorem IsChain.parts_eq : {t : JoinTree} → t.IsChain → t.parts = [⟨.inner, t, []⟩]
  | .base (.table _), _ => rfl
  | .join _ .inner (.table _) _, _ => rfl

/-- A chain of tables has no left outer join. -/
theorem IsChain.isInner : {t : JoinTree} → t.IsChain → t.IsInner
  | .base (.table _), _ => trivial
  | .join l .inner (.table _) _, h => ⟨IsChain.isInner (t := l) h, rfl, trivial⟩

/-- The aliases of a join are those of its left side and of its source. -/
@[simp] theorem aliases_join (l : JoinTree) (kind : JoinKind) (r : Source) (on : List Condition) :
    (join l kind r on).aliases = l.aliases ++ r.aliases := by
  simp [aliases, Source.aliases, tables]

/-- The aliases of an attached part come behind the others. -/
@[simp] theorem aliases_attach (t : JoinTree) (p : Part) :
    (t.attach p).aliases = t.aliases ++ p.aliases := aliases_join ..

/-- The tables of a tree are those of its parts. -/
theorem tables_parts (t : JoinTree) : t.tables = t.parts.flatMap (·.tree.tables) := by
  fun_induction parts t with
  | case1 l kind tree on ih => simp [tables, Source.tables, ih]
  | case2 t _ => simp

/-- The aliases of a tree are those of its parts, in order. -/
theorem aliases_parts (t : JoinTree) : t.aliases = t.parts.flatMap Part.aliases := by
  rw [aliases, tables_parts t, List.map_flatMap]
  rfl

/-- The conditions of a tree are those of its parts. -/
theorem conditions_parts (t : JoinTree) : t.conditions = t.parts.flatMap Part.conditions := by
  fun_induction parts t with
  | case1 l kind tree on ih => simp [conditions, Source.conditions, Part.conditions, ih]
  | case2 t _ => simp [Part.conditions]

/-- **A part may be attached** if it is well scoped itself and is joined on tables to its left or its own. -/
theorem wellScoped_attach {t : JoinTree} {p : Part} :
    (t.attach p).WellScoped ↔ t.WellScoped ∧ p.tree.WellScoped ∧
      ∀ c ∈ p.on, ∀ a ∈ c.aliases, a ∈ t.aliases ++ p.aliases := Iff.rfl

end JoinTree

mutual

/-- A source that is well scoped reads its own tables alone. -/
theorem Source.WellScoped.aliases_subset : {s : Source} → s.WellScoped →
    ∀ c ∈ s.conditions, ∀ a ∈ c.aliases, a ∈ s.aliases
  | .table _, _, _, hc => nomatch hc
  | .nested tree, h, c, hc => JoinTree.WellScoped.aliases_subset (t := tree) h c hc

/-- **A well scoped tree reads its own tables only.** -/
theorem JoinTree.WellScoped.aliases_subset : {t : JoinTree} → t.WellScoped →
    ∀ c ∈ t.conditions, ∀ a ∈ c.aliases, a ∈ t.aliases
  | .base s, h, c, hc => Source.WellScoped.aliases_subset (s := s) h c hc
  | .join l kind r on, ⟨hl, hr, hon⟩, c, hc => fun a ha => by
    rw [JoinTree.aliases_join]
    rcases List.mem_append.1 hc with hc | hc
    · rcases List.mem_append.1 hc with hc | hc
      · exact List.mem_append_left _ (JoinTree.WellScoped.aliases_subset hl c hc a ha)
      · exact List.mem_append_right _ (Source.WellScoped.aliases_subset hr c hc a ha)
    · exact hon c hc a ha

end

end Sql
end TripleSql
