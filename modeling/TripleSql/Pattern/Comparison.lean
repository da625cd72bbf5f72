/-
# Comparison operators

A filter compares with one of nine operators. They are written in any ASCII case, with blanks around them and
any number of blanks between the two words of `NOT LIKE`; in SQL they have one spelling each.

Source: specification, 4.4; `normalize_operator` and `SUPPORTED_OPERATORS`.
-/

import TripleSql.Text.Blank

namespace TripleSql
namespace Pattern

/-- The comparisons that a filter may make. -/
inductive Comparison where
  | equal
  | unequal
  | bangEqual
  | less
  | lessOrEqual
  | greater
  | greaterOrEqual
  | like
  | notLike
deriving DecidableEq, Repr

namespace Comparison

/-- The spelling in SQL. -/
def text : Comparison → String
  | equal => "="
  | unequal => "<>"
  | bangEqual => "!="
  | less => "<"
  | lessOrEqual => "<="
  | greater => ">"
  | greaterOrEqual => ">="
  | like => "LIKE"
  | notLike => "NOT LIKE"

/-- All comparisons, in the order in which messages list them. -/
def all : List Comparison :=
  [equal, unequal, bangEqual, less, lessOrEqual, greater, greaterOrEqual, like, notLike]

/-- The list of comparisons has all of them. -/
theorem mem_all (c : Comparison) : c ∈ all := by cases c <;> decide

/-- The words of the text in ASCII upper case, with one space between two of them. -/
def spelling (s : String) : String :=
  String.ofList ((([' '] : List Char).intercalate (Text.words s.toList)).map Char.toUpper)

/-- The comparison that a text spells, if it spells one. -/
def ofText? (s : String) : Option Comparison := all.find? (·.text == spelling s)

/-- A comparison is spelled as the text that it is read from, in upper case and with one space between two words. -/
theorem text_ofText? {s : String} {c : Comparison} (h : ofText? s = some c) : c.text = spelling s := by
  simpa using List.find?_some h

end Comparison
end Pattern
end TripleSql
