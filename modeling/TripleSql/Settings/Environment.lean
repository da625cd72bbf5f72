/-
# Variables in a file

A file `.env` holds assignments, one on a line. An assignment goes on over the ends of lines while a quote is open; which
quotes are open is told without regard to what an assignment is:

| mode | met | mode after it |
| --- | --- | --- |
| outside quotes | a quote, a backslash | inside, escaped |
| outside quotes | a blank other than the end of a line | after a blank |
| after a blank | `#` | a comment to the end of the line |
| after a blank | anything else | as outside quotes, where a blank counts for nothing |
| inside | the same quote, a backslash | outside, escaped inside |
| escaped | any character | where the backslash was, inside or outside |

The file ends at an assignment that cannot be read, and at one that is open at its end. What stands before is in force: a
variable of the environment goes before one of the file, and an earlier assignment before a later one. An assignment may
refer to both. A byte order mark at the start does not count.

Source: the format of `.env` files as the library that reads them has it; `run` reads one where no file of settings is
named.
-/

import TripleSql.Settings.Assignment

namespace TripleSql
namespace Settings

/-- Where in a record of a file a character stands. -/
inductive Mode where
  | outside
  | afterBlank
  | escaped
  | inside (quote : Char)
  | escapedInside (quote : Char)
deriving DecidableEq, Repr

namespace Mode

/-- The mode after a character outside quotes that is no blank. -/
def enter (c : Char) : Mode :=
  if c = '\\' then escaped else if c = '"' || c = '\'' then inside c else outside

/-- The mode after a character. -/
def next : Mode → Char → Mode
  | outside, c => if Text.isBlank c && c ≠ '\n' && c ≠ '\r' then afterBlank else enter c
  | afterBlank, c => enter c
  | escaped, _ => outside
  | inside q, c => if c = '\\' then escapedInside q else if c = q then outside else inside q
  | escapedInside q, _ => inside q

/-- The mode after a text. -/
def after (m : Mode) (cs : List Char) : Mode := cs.foldl next m

/-- The part of a text before its comment, if it has one. -/
def beforeComment? (m : Mode) : List Char → Option (List Char)
  | [] => none
  | c :: cs =>
    if m = afterBlank && c = '#' then some []
    else (beforeComment? (m.next c) cs).map (c :: ·)

end Mode

/-- The lines of a text, each with its end. -/
def lines : List Char → List (List Char)
  | [] => []
  | c :: cs =>
    if c = '\n' then [c] :: lines cs
    else
      match lines cs with
      | l :: ls => (c :: l) :: ls
      | [] => [[c]]

/-- The records of lines, each of as many lines as its quotes ask for; `before` is what is read of the first one. -/
def records (before : List Char) (m : Mode) : List (List Char) → List (List Char)
  | [] => []
  | l :: ls =>
    if (Text.trimStart (before ++ l)).head? = some '#' then records [] .outside ls
    else
      match m.beforeComment? l with
      | some part => (before ++ part) :: records [] .outside ls
      | none =>
        if m.after l = .outside then (before ++ l) :: records [] .outside ls
        else records (before ++ l) (m.after l) ls

/-- The assignments of records, up to one that cannot be read. -/
def assignments (env : String → Option String) : List (List Char) → List (String × String)
  | [] => []
  | r :: rs =>
    match assignment? env r with
    | none => []
    | some none => assignments env rs
    | some (some a) =>
      a :: assignments (fun name => env name <|> if name = a.1 then some a.2 else none) rs

/-- The records of a file. -/
def recordsOf (content : String) : List (List Char) :=
  let cs := content.toList
  records [] .outside (lines (if cs.head? = some '\ufeff' then cs.drop 1 else cs))

/-- The environment with the variables of a file behind it. -/
def withFile (env : String → Option String) (content : String) (name : String) : Option String :=
  env name <|> (assignments env (recordsOf content)).lookup name

/-- The names of the variables that a file may ask for: those that it assigns to and those that it refers to. -/
def namesIn (content : String) : List String :=
  mentioned content.toList ++ (assignments (fun _ => none) (recordsOf content)).map (·.1)

end Settings
end TripleSql
