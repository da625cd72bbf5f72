/-
# Files

What can go wrong when the text of a file is read, and how the name of a file tells its format. The ending of a name is
what follows the last dot after the last slash; a name that only starts with a dot has none.

Source: specification, 12; `from_file` of `QueryFile`, `from_yaml_file` of `CatalogConfig` and `from_yaml_file` of
`TranslatorConfig`, and the errors of the system that they pass on.
-/

namespace TripleSql
namespace File

/-- Why a file has no text. -/
inductive Fault where
  | notFound
  | isDirectory
  /-- Not text from some line on; the lines before it are. -/
  | notUtf8 (before : String)
  | other (cause : String)
deriving DecidableEq, Repr

/-- The fault in the words of the system. -/
def Fault.message : Fault → String
  | notFound => "No such file or directory (os error 2)"
  | isDirectory => "Is a directory (os error 21)"
  | notUtf8 _ => "stream did not contain valid UTF-8"
  | other cause => cause

/-- The lines of some bytes, each with its end. -/
def byteLines : List UInt8 → List (List UInt8)
  | [] => []
  | b :: bs =>
    if b = 10 then [b] :: byteLines bs
    else
      match byteLines bs with
      | l :: ls => (b :: l) :: ls
      | [] => [[b]]

/-- The text of the lines before the first one that is no UTF-8. -/
def textBefore (bytes : ByteArray) : String :=
  let texts := (byteLines bytes.toList).map fun l => String.fromUTF8? ⟨l.toArray⟩
  String.join ((texts.takeWhile Option.isSome).filterMap id)

/-- The text of the bytes of a file. -/
def ofBytes (bytes : ByteArray) : Except Fault String :=
  match String.fromUTF8? bytes with
  | some s => .ok s
  | none => .error (.notUtf8 (textBefore bytes))

/-- The characters of a list after the last one of a kind, or all of them. -/
def afterLast (c : Char) (cs : List Char) : List Char := (cs.reverse.takeWhile (· ≠ c)).reverse

/-- The ending of the name of a file. -/
def ending? (path : String) : Option (List Char) :=
  let name := afterLast '/' path.toList
  if (name.drop 1).contains '.' then some (afterLast '.' name) else none

/-- The file holds JSON: its ending is `json` in any ASCII case. -/
def isJson (path : String) : Bool :=
  (ending? path).map (·.map Char.toLower) = some ['j', 's', 'o', 'n']

end File
end TripleSql
