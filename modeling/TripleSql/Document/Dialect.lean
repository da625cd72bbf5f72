/-
# Reading fields

What a document in JSON or in YAML gives where a text, a list or a table is wanted.

| wanted | JSON | YAML |
| --- | --- | --- |
| a text | a text | any scalar, as it is written |
| a text that may be absent | | absent for `null`, `~` and nothing, else as above |
| a list or a table | that | that, and an empty one where nothing is written |
| nested lists and tables | at most 127 levels | at most 128 levels |

Of the fields of a record those that it does not know are skipped, and one that it knows may stand only once. In JSON a
record may also be written as the list of its fields in their order.

Source: the rules by which fields of records are read in JSON and in YAML.
-/

import TripleSql.Document.Basic

namespace TripleSql

/-- The language that a document was written in. -/
inductive Dialect where
  | json
  | yaml
deriving DecidableEq, Repr

namespace Dialect

/-- How deep lists and tables may be nested. -/
def depth : Dialect → Nat
  | json => 127
  | yaml => 128

/-- A text where one is wanted. -/
def text? : Dialect → Document → Option String
  | json, d => d.text?
  | yaml, .scalar s _ => some s
  | yaml, _ => none

/-- A text or its absence, where either is wanted. -/
def optionalText? (dialect : Dialect) : Document → Option (Option String)
  | .scalar _ .null => some none
  | d => (dialect.text? d).map some

/-- A truth value where one is wanted. -/
def bool? : Document → Option Bool
  | .scalar _ (.bool b) => some b
  | _ => none

/-- The items of a list where one is wanted. -/
def items? : Dialect → Document → Option (List Document)
  | _, .list items => some items
  | yaml, .scalar "" .null => some []
  | _, _ => none

/-- The entries of a table where one is wanted. -/
def entries? : Dialect → Document → Option (List (Document × Document))
  | _, .table entries => some entries
  | yaml, .scalar "" .null => some []
  | _, _ => none

/-- The texts of a list where one is wanted. -/
def texts? (dialect : Dialect) (d : Document) : Option (List String) :=
  (dialect.items? d).bind (·.mapM dialect.text?)

/-- The entries with the texts of their keys. -/
def keyed? (dialect : Dialect) (entries : List (Document × Document)) :
    Option (List (String × Document)) :=
  entries.mapM fun e => (dialect.text? e.1).map (·, e.2)

/-- The fields of a record that knows the given ones. -/
def fields? (dialect : Dialect) (known : List String) (d : Document) :
    Option (List (String × Document)) := do
  let fields ← dialect.keyed? (← dialect.entries? d)
  let fields := fields.filter (known.contains ·.1)
  if (fields.map (·.1)).Nodup then some fields else none

/-- The fields of a record that knows the given ones, also where JSON has a list of at least so many of them. -/
def record? (dialect : Dialect) (known : List String) (least : Nat) (d : Document) :
    Option (List (String × Document)) :=
  match dialect, d with
  | json, .list items =>
    if least ≤ items.length ∧ items.length ≤ known.length then some (known.zip items) else none
  | _, d => dialect.fields? known d

/-- A field read by a reader, or a default where it is missing. -/
def field? {α : Type} (name : String) (missing : Option α) (read : Document → Option α)
    (fields : List (String × Document)) : Option α :=
  match fields.lookup name with
  | some d => read d
  | none => missing

end Dialect
end TripleSql
