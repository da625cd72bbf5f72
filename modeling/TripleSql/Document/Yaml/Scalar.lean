/-
# Bare scalars of YAML

What a bare scalar means, in this order:

| text | meaning |
| --- | --- |
| nothing, `null`, `Null`, `NULL`, `~` | the absence of a value |
| `true`, `True`, `TRUE`, `false`, `False`, `FALSE` | a truth value |
| digits with an optional sign, or `0x`, `0o`, `0b` and digits of that base | a whole number |
| a sign, digits with or without a point, an exponent | a number, if it is finite |
| `.inf` and `.nan`, the first with an optional sign | a number |
| anything else | the text |

Two or more digits of which the first is a zero are a text. A whole number has to fit in 64 bits, without sign or with
one; up to 128 bits it is too large, and beyond that it is read as a number with a point would be, in base 10 only.

Source: YAML 1.1 as the library that reads catalogs, requests and settings has it.
-/

import TripleSql.Document.Json

namespace TripleSql
namespace Document
namespace Yaml

/-- The text after its sign, which may be missing, and whether the sign is a minus. -/
def unsigned (cs : List Char) : Bool × List Char :=
  match cs with
  | '-' :: ds => (true, ds)
  | '+' :: ds => (false, ds)
  | ds => (false, ds)

/-- Digits of which the first is a zero that is not alone. -/
def isPadded (cs : List Char) : Bool := cs.length > 1 && cs.head? = some '0' && cs.all Char.isDigit

/-- The number that digits of a base spell, if there are any digits and no other characters. -/
def based? (base : Nat) (cs : List Char) : Option Nat :=
  if cs = [] then none
  else cs.foldlM (fun n c => (Json.hexValue? c).bind fun d =>
    if d < base then some (n * base + d) else none) 0

/-- The size of a whole number. -/
def magnitude? (cs : List Char) : Option Nat :=
  match cs with
  | '0' :: 'x' :: ds => based? 16 ds
  | '0' :: 'o' :: ds => based? 8 ds
  | '0' :: 'b' :: ds => based? 2 ds
  | ds => if isPadded ds then none else based? 10 ds

/-- What a whole number means: the bounds are those of 64 and of 128 bits, without sign or with one. -/
def wholeMeaning? (negative : Bool) (n : Nat) : Option Meaning :=
  if negative then
    if n ≤ Nat.pow 2 63 then some .number else if n ≤ Nat.pow 2 127 then some .tooLarge else none
  else if n < Nat.pow 2 64 then some (.index n) else if n < Nat.pow 2 128 then some .tooLarge else none

/-- The digits on both sides of a point, which may be missing, with at least one digit; and what follows. -/
def decimal? (cs : List Char) : Option (List Char × List Char × List Char) :=
  let whole := cs.takeWhile Char.isDigit
  let (fraction, rest) :=
    match cs.dropWhile Char.isDigit with
    | '.' :: ds => (ds.takeWhile Char.isDigit, ds.dropWhile Char.isDigit)
    | ds => ([], ds)
  if whole = [] && fraction = [] then none else some (whole, fraction, rest)

/-- A finite number without its sign. -/
def isFinite (cs : List Char) : Bool :=
  match decimal? cs with
  | none => false
  | some (whole, fraction, rest) =>
    match Json.exponent? rest with
    | some (exponent, []) =>
      !isBeyondDouble (ofDigits (whole ++ fraction)) (exponent.getD 0 - fraction.length)
    | _ => false

/-- A number, whole or not, or one of the words for infinity and for no number. -/
def isNumber (s : String) : Bool :=
  [".nan", ".NaN", ".NAN"].contains s ||
    let body := (unsigned s.toList).2
    [".inf", ".Inf", ".INF"].contains (String.ofList body) || (!isPadded body && isFinite body)

/-- What a bare scalar means. -/
def meaning (s : String) : Meaning :=
  if ["", "null", "Null", "NULL", "~"].contains s then .null
  else if ["true", "True", "TRUE"].contains s then .bool true
  else if ["false", "False", "FALSE"].contains s then .bool false
  else
    let (negative, body) := unsigned s.toList
    match (magnitude? body).bind (wholeMeaning? negative) with
    | some m => m
    | none => if isNumber s then .number else .text

/-- A bare scalar. -/
def bare (s : String) : Document := .scalar s (meaning s)

end Yaml
end Document
end TripleSql
