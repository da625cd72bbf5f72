/-
# Nodes

A node is a slot of a triple pattern or of a filter. Its text is `?` and a name for a variable, and the stored
term itself for a constant. Read from text, after the outer blanks are taken off:

| text | node |
| --- | --- |
| `?` and a name without blanks | the variable of that name |
| `?` alone | refused: the name is empty |
| `?` and a name with a blank inside | refused: the name has a blank |
| nothing | refused: the constant is empty |
| anything else | the constant that is the text |

A refusal shows the text as it was given, outer blanks included.

Source: specification, 3; `Node` with `parse`, `var_name` and its text, and `QueryModelError` as far as it is about
nodes.
-/

import TripleSql.Text.Blank

namespace TripleSql
namespace Pattern

/-- A variable, or a constant in the form in which the tables store the term. -/
inductive Node where
  | var (name : String)
  | const (value : String)
deriving DecidableEq, Repr, Inhabited

/-- What is wrong with the text of a node. -/
inductive NodeFault where
  | emptyVariable
  | blankInVariable
  | emptyConstant
deriving DecidableEq, Repr

/-- A text that is no node, and why. -/
structure NodeError where
  text : String
  fault : NodeFault
deriving DecidableEq, Repr

namespace NodeFault

/-- The fault in words. -/
def reason : NodeFault → String
  | emptyVariable => "variable name is empty"
  | blankInVariable => "variable names cannot contain whitespace"
  | emptyConstant => "constant is empty"

end NodeFault

namespace NodeError

/-- The message of a refused text. -/
def message (e : NodeError) : String := "Invalid node `" ++ e.text ++ "`: " ++ e.fault.reason

end NodeError

namespace Node

/-- The node that a text without outer blanks stands for. -/
def ofTrimmed : List Char → Except NodeFault Node
  | [] => .error .emptyConstant
  | c :: cs =>
    if c = '?' then
      if cs = [] then .error .emptyVariable
      else if cs.any Text.isBlank then .error .blankInVariable
      else .ok (.var (String.ofList cs))
    else .ok (.const (String.ofList (c :: cs)))

/-- The node that a text stands for. -/
def parse (text : String) : Except NodeError Node :=
  (ofTrimmed (Text.trim text).toList).mapError (⟨text, ·⟩)

/-- The text of a node. -/
def text : Node → String
  | var name => "?" ++ name
  | const value => value

/-- The variable that the node is, if it is one. -/
def var? : Node → Option String
  | var name => some name
  | const _ => none

end Node
end Pattern
end TripleSql
