/-
# Bindings

The column that a variable stands for is that of its first occurrence. Binding a variable that has a column changes
nothing, so a binding is never replaced while a query is compiled; `set` replaces one and is for callers that start
from bindings of their own.

Source: specification, 4.2; `VariableBindings`.
-/

import TripleSql.Sql.Statement

namespace TripleSql
namespace Compile

/-- The column of each bound variable, in the order in which the variables were bound. -/
structure Bindings where
  entries : List (String × Sql.Column) := []
deriving DecidableEq, Repr, Inhabited

namespace Bindings

/-- The column of a variable. -/
def column? (b : Bindings) (v : String) : Option Sql.Column := b.entries.lookup v

/-- The bound variables, in the order in which they were bound. -/
def vars (b : Bindings) : List String := b.entries.map (·.1)

/-- The bound variables in ascending order. -/
def names (b : Bindings) : List String := b.vars.mergeSort

/-- The variable has the column, unless it has one. -/
def bind (b : Bindings) (v : String) (c : Sql.Column) : Bindings :=
  if (b.column? v).isSome then b else ⟨b.entries ++ [(v, c)]⟩

/-- The bindings with those of another list for the variables that have none. -/
def bindAll (b : Bindings) (entries : List (String × Sql.Column)) : Bindings :=
  entries.foldl (fun b e => b.bind e.1 e.2) b

/-- The variable has the column, whatever it had before. -/
def set (b : Bindings) (v : String) (c : Sql.Column) : Bindings :=
  ⟨b.entries.filter (·.1 ≠ v) ++ [(v, c)]⟩

/-- **A column is bound once:** binding another column to a variable that has one changes nothing. -/
theorem column?_bind (b : Bindings) (v w : String) (c : Sql.Column) :
    (b.bind v c).column? w = if w = v then some ((b.column? v).getD c) else b.column? w := by
  unfold bind
  split
  · next h =>
    split
    · next hw => subst hw; obtain ⟨d, hd⟩ := Option.isSome_iff_exists.1 h; simp [hd]
    · rfl
  · next h =>
    simp only [Option.not_isSome_iff_eq_none] at h
    simp only [column?, List.lookup_append] at h ⊢
    split
    · next hw => subst hw; simp [h]
    · next hw => simp [List.lookup_cons, beq_eq_false_iff_ne.2 hw]

/-- Bindings go before a list that is bound after them, and the list goes by its first entries. -/
theorem column?_bindAll (b : Bindings) (es : List (String × Sql.Column)) (w : String) :
    (b.bindAll es).column? w = (b.column? w).or (es.lookup w) := by
  induction es generalizing b with
  | nil => cases h : b.column? w <;> simp [bindAll, h]
  | cons e es ih =>
    rw [show b.bindAll (e :: es) = (b.bind e.1 e.2).bindAll es from rfl, ih, column?_bind,
      show (e :: es).lookup w = _ from List.lookup_cons]
    by_cases h : w = e.1
    · subst h; cases b.column? e.1 <;> simp
    · simp [h, beq_eq_false_iff_ne.2]

end Bindings
end Compile
end TripleSql
