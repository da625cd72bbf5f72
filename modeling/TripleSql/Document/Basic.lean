/-
# Documents

What a data file holds once it is read: scalars, lists, and tables of entries in the order in which they were written.
A repeated key stays, since some readers of a document refuse it and others take its last entry.

A scalar is kept as its text together with what the text means: a quoted text means itself, a bare one may mean a
number, a truth value or the absence of a value. Whoever wants a text may take either, as the format of the file allows.

A document can also be written from lists and texts alone, `Document.ofText` and the like, and is then printed by
`TripleSql.Document.Print`.

Source: the data model that the readers of JSON and YAML share.
-/

namespace TripleSql

/-- What the text of a scalar means. -/
inductive Meaning where
  | null
  | bool (value : Bool)
  /-- A whole number without a minus sign. -/
  | index (value : Nat)
  /-- Any other number. -/
  | number
  /-- A number outside the range of numbers that the format has. -/
  | tooLarge
  /-- A quoted text in which half of a pair of surrogates stands alone; no string is that text. -/
  | unpaired
  | text
deriving DecidableEq, Repr

/-- Scalars, lists and tables. -/
inductive Document where
  | scalar (text : String) (meaning : Meaning)
  | list (items : List Document)
  | table (entries : List (Document × Document))
deriving Repr, BEq, Inhabited

namespace Document

/-- A scalar that means its text. -/
def ofText (s : String) : Document := .scalar s .text

/-- The absence of a value. -/
def null : Document := .scalar "null" .null

/-- A truth value. -/
def ofBool (b : Bool) : Document := .scalar (if b then "true" else "false") (.bool b)

/-- A natural number. -/
def ofNat (n : Nat) : Document := .scalar n.repr (.index n)

/-- A text, or the absence of one. -/
def ofText? : Option String → Document
  | some s => ofText s
  | none => null

/-- A list of texts. -/
def ofTexts (ss : List String) : Document := .list (ss.map ofText)

/-- A table whose keys are texts. -/
def record (fields : List (String × Document)) : Document :=
  .table (fields.map fun f => (ofText f.1, f.2))

/-- The text of a scalar that means its text. -/
def text? : Document → Option String
  | .scalar s .text => some s
  | _ => none

mutual

/-- Lists and tables are nested at most as deep as the limit, and every number and every text has a value. -/
def isWithin (limit : Nat) : Document → Bool
  | .scalar _ m => m ≠ .tooLarge && m ≠ .unpaired
  | .list items => 0 < limit && areWithin (limit - 1) items
  | .table entries => 0 < limit && entriesAreWithin (limit - 1) entries

/-- The same for the items of a list. -/
def areWithin (limit : Nat) : List Document → Bool
  | [] => true
  | d :: ds => d.isWithin limit && areWithin limit ds

/-- The same for keys and values of a table. -/
def entriesAreWithin (limit : Nat) : List (Document × Document) → Bool
  | [] => true
  | (k, v) :: es => k.isWithin limit && v.isWithin limit && entriesAreWithin limit es

end

end Document
end TripleSql
