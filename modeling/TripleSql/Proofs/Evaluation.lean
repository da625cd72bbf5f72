/-
# What a statement evaluates to

A stored table is a multiset of records, and a joined row says what stands in each column under each alias. A column
that a row does not have, or has no value in, is `none`; a comparison with it does not hold. A join pairs the rows
of its two sides and keeps the pairs that its conditions hold of; a nested tree is evaluated on its own, and a left
outer join keeps a row of its left side that finds no partner.

A condition does not see what stands under aliases that it does not read (`Condition.holds_congr`). All that is said of
where conditions may stand in a statement rests on that.
-/

import TripleSql.Proofs.Selections
import TripleSql.Proofs.Trees

namespace TripleSql
namespace Sql

/-- What stands in each column of a stored row. -/
abbrev Record := String → Option String

/-- The stored rows of each table. -/
abbrev Database := String → Multiset Record

/-- When a comparison holds, `=` apart. -/
abbrev Operators := String → String → String → Bool

/-- What stands in each column of a joined row. -/
abbrev Row := Column → Option String

/-- `=` is equality, whatever the other operators are. -/
def Operators.holds (ops : Operators) (operator a b : String) : Bool :=
  if operator = "=" then a == b else ops operator a b

/-- Two values compare; what has no value compares with nothing. -/
def Operators.relates (ops : Operators) (operator : String) : Option String → Option String → Bool
  | some a, some b => ops.holds operator a b
  | _, _ => false

/-- Equality asks for a value on either side, the same one. -/
theorem Operators.relates_equal {ops : Operators} {a? b? : Option String} :
    ops.relates "=" a? b? = true ↔ ∃ x, a? = some x ∧ b? = some x := by
  cases a? with
  | none => exact iff_of_false nofun nofun
  | some a =>
    cases b? with
    | none => exact iff_of_false nofun nofun
    | some b =>
      rw [relates, holds, if_pos rfl, beq_iff_eq]
      constructor
      · rintro rfl
        exact ⟨a, rfl, rfl⟩
      · rintro ⟨x, ha, hb⟩
        exact Option.some.inj (ha.trans hb.symm)

namespace Row

/-- Nothing stands in any column. -/
def empty : Row := fun _ => none

/-- Two rows side by side; what stands in the first one goes before. -/
def merge (e f : Row) : Row := fun c => (e c).or (f c)

/-- Any number of rows side by side. -/
def mergeAll (es : List Row) : Row := es.foldr merge empty

/-- Nothing stands under other aliases. -/
def Within (as : List String) (e : Row) : Prop := ∀ c, c.tableAlias ∉ as → e c = none

variable {e f g : Row} {as bs : List String} {c : Column}

@[simp] theorem merge_empty (e : Row) : e.merge empty = e := funext fun _ => Option.or_none

theorem merge_assoc (e f g : Row) : (e.merge f).merge g = e.merge (f.merge g) := funext fun _ => Option.or_assoc

/-- Rows side by side may be put together in two groups. -/
theorem mergeAll_append (es fs : List Row) : mergeAll (es ++ fs) = (mergeAll es).merge (mergeAll fs) := by
  induction es with
  | nil => rfl
  | cons e es ih => exact (congrArg e.merge ih).trans (merge_assoc ..).symm

/-- What the second row says nothing of is said by the first one. -/
theorem merge_left (hf : f.Within bs) (hc : c.tableAlias ∉ bs) : e.merge f c = e c := by
  rw [merge, hf c hc, Option.or_none]

/-- What the first row says nothing of is said by the second one. -/
theorem merge_right (he : e.Within as) (hc : c.tableAlias ∉ as) : e.merge f c = f c := by
  rw [merge, he c hc, Option.none_or]

/-- Side by side, nothing stands outside the aliases of the two rows. -/
theorem Within.merge (he : e.Within as) (hf : f.Within bs) : (e.merge f).Within (as ++ bs) := fun c hc => by
  rw [List.mem_append, not_or] at hc
  rw [merge_left hf hc.2, he c hc.1]

/-- Side by side, nothing stands outside the aliases of all rows together. -/
theorem within_mergeAll {α : Type} {aliases : α → List String} {es : List Row} {xs : List α}
    (h : List.Forall₂ (fun e x => e.Within (aliases x)) es xs) : (mergeAll es).Within (xs.flatMap aliases) := by
  induction h with
  | nil => exact fun _ _ => rfl
  | cons he _ ih => exact Within.merge he ih

end Row

/-- The value of an operand in a row. -/
def Operand.value? (e : Row) : Operand → Option String
  | column c => e c
  | literal x => some x

namespace Condition

/-- The comparison holds of a row. -/
def holds (ops : Operators) (e : Row) (c : Condition) : Bool :=
  ops.relates c.operator (c.left.value? e) (c.right.value? e)

/-- All of the conditions hold of a row. -/
def AllHold (ops : Operators) (cs : List Condition) (e : Row) : Prop := ∀ c ∈ cs, c.holds ops e = true

instance (ops : Operators) (cs : List Condition) : DecidablePred (AllHold ops cs) :=
  fun e => inferInstanceAs (Decidable (∀ c ∈ cs, c.holds ops e = true))

end Condition

/-- The rows of a table under its alias. -/
def Table.rows (db : Database) (t : Table) : Multiset Row :=
  (db t.name).map fun r c => if c.tableAlias = t.aliasName then r c.name else none

/-- What a join makes of a row and the pairs that it is in: a left outer join keeps the row if there is none. -/
def JoinKind.complete : JoinKind → Row → Multiset Row → Multiset Row
  | inner, _, pairs => pairs
  | leftOuter, e, pairs => padded e pairs

mutual

/-- The rows of a source. -/
def Source.rows (ops : Operators) (db : Database) : Source → Multiset Row
  | .table t => t.rows db
  | .nested tree => tree.rows ops db

/-- The rows of a tree. -/
def JoinTree.rows (ops : Operators) (db : Database) : JoinTree → Multiset Row
  | .base s => s.rows ops db
  | .join l kind r on =>
    (l.rows ops db).bind fun e =>
      kind.complete e (((r.rows ops db).map e.merge).filter (Condition.AllHold ops on))

end

namespace Statement

/-- The joined rows that `WHERE` leaves. -/
def joined (ops : Operators) (db : Database) (st : Statement) : Multiset Row :=
  (st.tables.rows ops db).filter (Condition.AllHold ops st.conditions)

/-- The result rows of a statement. -/
def rows (ops : Operators) (db : Database) (st : Statement) : Multiset (List (Option String)) :=
  (st.joined ops db).map fun e => st.select.map e

end Statement

/-- The cross product of tables. -/
def crossRows (db : Database) (ts : List Table) : Multiset Row :=
  (selections (ts.map (Table.rows db))).map Row.mergeAll

section Cross

variable {db : Database} {ts us : List Table} {e : Row}

/-- A cross join of tables may be made in two groups. -/
theorem crossRows_append (ts us : List Table) :
    crossRows db (ts ++ us) = (crossRows db ts).bind fun e => (crossRows db us).map e.merge := by
  rw [crossRows, List.map_append, selections_append, Multiset.map_bind, crossRows, Multiset.bind_map]
  refine Multiset.bind_congr fun es _ => ?_
  rw [crossRows, Multiset.map_map, Multiset.map_map]
  exact Multiset.map_congr rfl fun fs _ => Row.mergeAll_append es fs

/-- A cross join of one table has the rows of the table. -/
theorem crossRows_singleton (t : Table) : crossRows db [t] = t.rows db := by
  rw [crossRows, List.map_singleton, selections_singleton, Multiset.map_map]
  exact (Multiset.map_congr rfl fun e _ => Row.merge_empty e).trans (Multiset.map_id' _)

/-- Rows of tables have nothing under other aliases. -/
theorem within_of_mem_crossRows (h : e ∈ crossRows db ts) : e.Within (ts.map (·.aliasName)) := by
  induction ts generalizing e with
  | nil =>
    obtain rfl : e = Row.empty := Multiset.mem_singleton.1 h
    exact fun _ _ => rfl
  | cons t ts ih =>
    rw [← List.singleton_append, crossRows_append, crossRows_singleton] at h
    obtain ⟨f, hf, he⟩ := Multiset.mem_bind.1 h
    obtain ⟨g, hg, rfl⟩ := Multiset.mem_map.1 he
    obtain ⟨r, -, rfl⟩ := Multiset.mem_map.1 hf
    have hone : Row.Within [t.aliasName] fun c => if c.tableAlias = t.aliasName then r c.name else none :=
      fun c hc => if_neg fun hca => hc (List.mem_singleton.2 hca)
    exact hone.merge (ih hg)

end Cross

namespace Condition

variable {ops : Operators} {c : Condition} {cs ds : List Condition} {e f : Row} {as : List String}

/-- **A condition does not see** what stands under aliases that it does not read. -/
theorem holds_congr (h : ∀ d : Column, d.tableAlias ∈ c.aliases → e d = f d) : c.holds ops e = c.holds ops f := by
  have value : ∀ o : Operand, (∀ a, o.alias? = some a → a ∈ c.aliases) → o.value? e = o.value? f := by
    intro o ho
    cases o with
    | column d => exact h d (ho _ rfl)
    | literal x => rfl
  rw [holds, value c.left fun a ha => mem_aliases.2 (.inl ha), value c.right fun a ha => mem_aliases.2 (.inr ha),
    holds]

/-- Conditions hold alike of rows that agree under the aliases that they read. -/
theorem allHold_congr (h : ∀ c ∈ cs, ∀ d : Column, d.tableAlias ∈ c.aliases → e d = f d) :
    AllHold ops cs e ↔ AllHold ops cs f :=
  forall₂_congr fun c hc => by rw [holds_congr (h c hc)]

/-- The conditions of two lists hold if those of each list do. -/
theorem allHold_append : AllHold ops (cs ++ ds) e ↔ AllHold ops cs e ∧ AllHold ops ds e :=
  List.forall_mem_append

/-- Conditions that read nothing of the second row hold of both rows if they hold of the first. -/
theorem allHold_merge_left (hf : f.Within as) (h : ∀ c ∈ cs, ∀ a ∈ c.aliases, a ∉ as) :
    AllHold ops cs (e.merge f) ↔ AllHold ops cs e :=
  allHold_congr fun c hc _ hd => Row.merge_left hf (h c hc _ hd)

/-- Conditions that read nothing of the first row hold of both rows if they hold of the second. -/
theorem allHold_merge_right (he : e.Within as) (h : ∀ c ∈ cs, ∀ a ∈ c.aliases, a ∉ as) :
    AllHold ops cs (e.merge f) ↔ AllHold ops cs f :=
  allHold_congr fun c hc _ hd => Row.merge_right he (h c hc _ hd)

/-- Equivalent conditions hold of the same rows. -/
theorem holds_of_isEquivalent {d : Condition} (h : c.isEquivalent d = true) : c.holds ops e = d.holds ops e := by
  rcases isEquivalent_iff.1 h with rfl | ⟨hc, hd, hl, hr⟩
  · rfl
  · rw [holds, holds, hl, hr, hc, hd, Bool.eq_iff_iff, Operators.relates_equal, Operators.relates_equal]
    exact exists_congr fun x => and_comm

/-- Where all conditions of a list hold, so does one that is equivalent to one of them. -/
theorem AllHold.of_has {d : Condition} (h : AllHold ops cs e) (hd : Has cs d) : d.holds ops e = true := by
  obtain ⟨c, hc, hcd⟩ := hd
  exact holds_of_isEquivalent hcd ▸ h c hc

/-- An equality of columns holds if they have one value. -/
theorem holds_columnsEqual {a b : Column} :
    (columnsEqual a b).holds ops e = true ↔ ∃ x, e a = some x ∧ e b = some x := Operators.relates_equal

/-- A constant stands in its column where its condition holds. -/
theorem holds_columnIs {a : Column} {x : String} : (columnIs a x).holds ops e = true ↔ e a = some x := by
  refine Operators.relates_equal.trans ⟨?_, fun h => ⟨x, h, rfl⟩⟩
  rintro ⟨y, hy, hx⟩
  exact hy.trans hx.symm

end Condition

end Sql
end TripleSql
