/-
# Reading JSON

JSON text by the strict grammar: no comment, no comma before a closing bracket, no leading zero, no raw control character
in a text. A number outside the range of doubles is read and marked as too large, and a text with an escaped surrogate that
is no half of a pair is read and marked as such: both are faults only where somebody wants the value.

`read?` reads one value from the start of a text and leaves what follows it, so that a caller can look at the value before
it looks at the rest.

Source: JSON as the library that reads requests and statements has it.
-/

import TripleSql.Document.Basic
import TripleSql.Document.Number

namespace TripleSql
namespace Document
namespace Json

/-- The blanks of JSON. -/
def isSpace (c : Char) : Bool := c = ' ' || c = '\n' || c = '\r' || c = '\t'

/-- The text from its first character that is no blank on. -/
def skip (cs : List Char) : List Char := cs.dropWhile isSpace

/-- The value of a digit in base 16. -/
def hexValue? (c : Char) : Option Nat :=
  if c.isDigit then some (c.toNat - 48)
  else if 'a' ≤ c && c ≤ 'f' then some (c.toNat - 87)
  else if 'A' ≤ c && c ≤ 'F' then some (c.toNat - 55)
  else none

/-- The number that four digits in base 16 spell. -/
def hex4? (a b c d : Char) : Option Nat := do
  return (((← hexValue? a) * 16 + (← hexValue? b)) * 16 + (← hexValue? c)) * 16 + (← hexValue? d)

/-- The character that a letter after a backslash stands for. -/
def escape? (c : Char) : Option Char :=
  if c = '"' || c = '\\' || c = '/' then some c
  else if c = 'b' then some '\x08'
  else if c = 'f' then some '\x0c'
  else if c = 'n' then some '\n'
  else if c = 'r' then some '\r'
  else if c = 't' then some '\t'
  else none

/-- The number is the first half of a pair of surrogates. -/
def isHigh (n : Nat) : Bool := 0xD800 ≤ n && n < 0xDC00

/-- The number is the second half of a pair of surrogates. -/
def isLow (n : Nat) : Bool := 0xDC00 ≤ n && n < 0xE000

/-- The character that two surrogates stand for. -/
def paired (high low : Nat) : Char := Char.ofNat (0x10000 + (high - 0xD800) * 0x400 + (low - 0xDC00))

/-- The characters with the given numbers, two surrogates that are a pair being one; none if a surrogate stands alone. -/
def characters? : List Nat → Option (List Char)
  | [] => some []
  | [n] => if isHigh n || isLow n then none else some [Char.ofNat n]
  | n :: m :: ns =>
    if isHigh n && isLow m then (characters? ns).map (paired n m :: ·)
    else if isHigh n || isLow n then none
    else (characters? (m :: ns)).map (Char.ofNat n :: ·)

/-- The numbers of the characters up to the closing quote, and what follows the quote. -/
def codes? : List Char → Option (List Nat × List Char)
  | [] => none
  | '"' :: cs => some ([], cs)
  | '\\' :: 'u' :: a :: b :: c :: d :: cs => do
    let n ← hex4? a b c d
    (codes? cs).map fun r => (n :: r.1, r.2)
  | '\\' :: c :: cs => do
    let x ← escape? c
    (codes? cs).map fun r => (x.toNat :: r.1, r.2)
  | c :: cs => if c.toNat < 32 then none else (codes? cs).map fun r => (c.toNat :: r.1, r.2)

/-- The text up to its closing quote, if it is one, and what follows the quote. -/
def text? (cs : List Char) : Option (Option String × List Char) :=
  (codes? cs).map fun r => ((characters? r.1).map String.ofList, r.2)

/-- The scalar of a text in quotes. -/
def quotedScalar : Option String → Document
  | some s => .ofText s
  | none => .scalar "" .unpaired

/-- At least one digit, and what follows the digits. -/
def digits? (cs : List Char) : Option (List Char × List Char) :=
  match cs.takeWhile Char.isDigit with
  | [] => none
  | ds => some (ds, cs.dropWhile Char.isDigit)

/-- The digits before the point: a zero alone, or digits that do not start with a zero. -/
def whole? (cs : List Char) : Option (List Char × List Char) := do
  let (ds, rest) ← digits? cs
  if ds.head? = some '0' && ds ≠ ['0'] then none else some (ds, rest)

/-- The digits after a point, if there is a point. -/
def fraction? : List Char → Option (List Char × List Char)
  | '.' :: cs => digits? cs
  | cs => some ([], cs)

/-- The exponent, if there is one. -/
def exponent? : List Char → Option (Option Int × List Char)
  | c :: cs =>
    if c = 'e' || c = 'E' then
      match cs with
      | '-' :: cs => (digits? cs).map fun r => (some (-(ofDigits r.1 : Int)), r.2)
      | '+' :: cs => (digits? cs).map fun r => (some (ofDigits r.1), r.2)
      | cs => (digits? cs).map fun r => (some (ofDigits r.1), r.2)
    else some (none, c :: cs)
  | [] => some (none, [])

/-- A number. -/
def number? (cs : List Char) : Option (Document × List Char) := do
  let negative := cs.head? = some '-'
  let (whole, rest) ← whole? (if negative then cs.drop 1 else cs)
  let (fraction, rest) ← fraction? rest
  let (exponent, rest) ← exponent? rest
  let (m, e) := significand64 whole fraction
  let meaning :=
    if isBeyondProduct m (e + exponent.getD 0) then .tooLarge
    else if negative || fraction ≠ [] || exponent ≠ none || e ≠ 0 then .number
    else .index m
  return (.scalar (String.ofList (cs.take (cs.length - rest.length))) meaning, rest)

/-- One of the three words, or a number. -/
def bare? (cs : List Char) : Option (Document × List Char) :=
  match cs with
  | 'n' :: 'u' :: 'l' :: 'l' :: cs => some (.null, cs)
  | 't' :: 'r' :: 'u' :: 'e' :: cs => some (.ofBool true, cs)
  | 'f' :: 'a' :: 'l' :: 's' :: 'e' :: cs => some (.ofBool false, cs)
  | cs => number? cs

mutual

/-- A value at the start of a text; the bound is on the values in it. -/
def value? : Nat → List Char → Option (Document × List Char)
  | 0, _ => none
  | n + 1, cs =>
    match skip cs with
    | '"' :: cs => (text? cs).map fun r => (quotedScalar r.1, r.2)
    | '[' :: cs =>
      match skip cs with
      | ']' :: cs => some (.list [], cs)
      | cs => (items? n cs).map fun r => (.list r.1, r.2)
    | '\x7b' :: cs =>
      match skip cs with
      | '\x7d' :: cs => some (.table [], cs)
      | cs => (entries? n cs).map fun r => (.table r.1, r.2)
    | cs => bare? cs

/-- The items of a list up to its closing bracket. -/
def items? : Nat → List Char → Option (List Document × List Char)
  | 0, _ => none
  | n + 1, cs => do
    let (d, cs) ← value? n cs
    match skip cs with
    | ',' :: cs => (items? n cs).map fun r => (d :: r.1, r.2)
    | ']' :: cs => some ([d], cs)
    | _ => none

/-- The entries of a table up to its closing bracket. -/
def entries? : Nat → List Char → Option (List (Document × Document) × List Char)
  | 0, _ => none
  | n + 1, cs =>
    match skip cs with
    | '"' :: cs => do
      let (k, cs) ← text? cs
      match skip cs with
      | ':' :: cs => do
        let (v, cs) ← value? n cs
        match skip cs with
        | ',' :: cs => (entries? n cs).map fun r => ((quotedScalar k, v) :: r.1, r.2)
        | '\x7d' :: cs => some ([(quotedScalar k, v)], cs)
        | _ => none
      | _ => none
    | _ => none

end

/-- The value at the start of a text, and what follows it. Every value takes a character of the text, so the length of
the text bounds their number. -/
def read? (s : String) : Option (Document × List Char) := value? (2 * s.length + 2) s.toList

/-- Only blanks follow. -/
def isEnd (rest : List Char) : Bool := skip rest = []

/-- The value that a text is. -/
def parse? (s : String) : Option Document :=
  match read? s with
  | some (d, rest) => if isEnd rest then some d else none
  | none => none

end Json
end Document
end TripleSql
