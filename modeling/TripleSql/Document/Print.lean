/-
# Printed documents

JSON text of a document, on one line without spaces, or with each item and entry on a line of its own, indented by two
spaces for each level. An empty list is `[]` and an empty table is `{}` in both.

In a text a quote and a backslash are escaped, and so are the control characters below `20`, five of them by a letter
and the others by `\u00` and two lower-case digits; everything else stands as it is.

Source: the two forms, compact and pretty, in which statements and requests are serialized.
-/

import TripleSql.Document.Basic

namespace TripleSql
namespace Document

/-- A digit in base 16. -/
def hexDigit (n : Nat) : Char := if n < 10 then Char.ofNat (48 + n) else Char.ofNat (87 + n)

/-- A character inside a text. -/
def escaped (c : Char) : List Char :=
  if c = '"' then ['\\', '"']
  else if c = '\\' then ['\\', '\\']
  else if c = '\n' then ['\\', 'n']
  else if c = '\r' then ['\\', 'r']
  else if c = '\t' then ['\\', 't']
  else if c.toNat = 8 then ['\\', 'b']
  else if c.toNat = 12 then ['\\', 'f']
  else if c.toNat < 32 then ['\\', 'u', '0', '0', hexDigit (c.toNat / 16), hexDigit (c.toNat % 16)]
  else [c]

/-- A text between quotes. -/
def quotedText (s : String) : String := String.ofList ('"' :: (s.toList.flatMap escaped ++ ['"']))

/-- A scalar: quoted if it means its text, and as it was written otherwise. -/
def scalarText (s : String) (m : Meaning) : String := if m = .text then quotedText s else s

/-- Parts between an opening and a closing character, with commas between them. -/
def enclosed (opening closing : Char) (parts : List String) : String :=
  opening.toString ++ ",".intercalate parts ++ closing.toString

/-- A line break and the indentation of a level. -/
def newLine (level : Nat) : String := String.ofList ('\n' :: List.replicate (2 * level) ' ')

/-- Parts between an opening and a closing character, each on a line of its own one level further in. -/
def enclosedLines (level : Nat) (opening closing : Char) (parts : List String) : String :=
  if parts = [] then opening.toString ++ closing.toString
  else opening.toString ++ ",".intercalate (parts.map (newLine (level + 1) ++ ·)) ++ newLine level ++
    closing.toString

mutual

/-- The text of a document on one line. -/
def print : Document → String
  | .scalar s m => scalarText s m
  | .list items => enclosed '[' ']' (printItems items)
  | .table entries => enclosed '\x7b' '\x7d' (printEntries entries)

/-- The texts of items on one line each. -/
def printItems : List Document → List String
  | [] => []
  | d :: ds => d.print :: printItems ds

/-- The texts of entries on one line each. -/
def printEntries : List (Document × Document) → List String
  | [] => []
  | (k, v) :: es => (k.print ++ ":" ++ v.print) :: printEntries es

end

mutual

/-- The text of a document with its parts on lines of their own, from the given level in. -/
def printLines (level : Nat) : Document → String
  | .scalar s m => scalarText s m
  | .list items => enclosedLines level '[' ']' (printItemLines (level + 1) items)
  | .table entries => enclosedLines level '\x7b' '\x7d' (printEntryLines (level + 1) entries)

/-- The texts of items at a level. -/
def printItemLines (level : Nat) : List Document → List String
  | [] => []
  | d :: ds => d.printLines level :: printItemLines level ds

/-- The texts of entries at a level. -/
def printEntryLines (level : Nat) : List (Document × Document) → List String
  | [] => []
  | (k, v) :: es => (k.printLines level ++ ": " ++ v.printLines level) :: printEntryLines level es

end

end Document
end TripleSql
