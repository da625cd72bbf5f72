/-
# Assignments

An assignment is a name, an equals sign and a value, with blanks around them that do not count; the word `export` may stand
before the name. A name starts with an ASCII letter or `_` and goes on with ASCII letters, digits, `_` and points. A text
that is empty or starts with `#` assigns nothing.

A value has no blanks of its own outside quotes: after a space or a tab only more of them and a comment may follow.

| in a value | stands for |
| --- | --- |
| a text in single quotes | itself |
| a text in double quotes | itself, with escapes and references replaced |
| a backslash and one of `\ ' " $` or a space | that character |
| a backslash and `n` | a line feed |
| `$` and ASCII letters and digits, `$` and a name in braces | the value of the variable, nothing if it has none |
| any other character | itself |

The character that ends a reference without braces stands for itself, also where it is a quote, a backslash or a space;
only another `$` starts a reference there.

Source: the format of `.env` files as the library that reads them has it; `run` reads one where no file of settings is
named.
-/

import TripleSql.Text.Blank

namespace TripleSql
namespace Settings

/-- The name at the start of a text, and what follows it. -/
def variableName? : List Char → Option (String × List Char)
  | [] => none
  | c :: cs =>
    let goesOn : Char → Bool := fun c => c.isAlphanum || c = '_' || c = '.'
    if c.isAlpha || c = '_' then some (String.ofList (c :: cs.takeWhile goesOn), cs.dropWhile goesOn)
    else none

/-- Nothing follows, or a comment. -/
def isVoid (cs : List Char) : Bool := cs = [] || cs.head? = some '#'

/-- The value of a variable, nothing if it has none. -/
def referred (env : String → Option String) (name : List Char) : List Char :=
  ((env (String.ofList name)).getD "").toList

mutual

/-- The value that a text spells, from outside quotes on or from inside double ones. -/
def value? (env : String → Option String) (quoted : Bool) : List Char → Option (List Char)
  | [] => if quoted then none else some []
  | c :: cs =>
    if c = '$' then reference? env quoted [] cs
    else if c = '\\' then escaped? env quoted cs
    else if c = '"' then value? env (!quoted) cs
    else if quoted then (value? env true cs).map (c :: ·)
    else if c = '\'' then single? env cs
    else if c = ' ' || c = '\t' then
      if isVoid (cs.dropWhile fun c => c = ' ' || c = '\t') then some [] else none
    else (value? env false cs).map (c :: ·)

/-- The value from after a backslash on. -/
def escaped? (env : String → Option String) (quoted : Bool) : List Char → Option (List Char)
  | [] => if quoted then none else some []
  | c :: cs =>
    if c = 'n' then (value? env quoted cs).map ('\n' :: ·)
    else if ['\\', '\'', '"', '$', ' '].contains c then (value? env quoted cs).map (c :: ·)
    else none

/-- The value from inside single quotes on. -/
def single? (env : String → Option String) : List Char → Option (List Char)
  | [] => none
  | c :: cs => if c = '\'' then value? env false cs else (single? env cs).map (c :: ·)

/-- The value from inside a reference on, of whose name a part is read. -/
def reference? (env : String → Option String) (quoted : Bool) (name : List Char) :
    List Char → Option (List Char)
  | [] => if quoted then none else some (referred env name)
  | c :: cs =>
    if c.isAlphanum then reference? env quoted (name ++ [c]) cs
    else if c = '\x7b' && name = [] then braced? env quoted [] cs
    else if c = '$' then (reference? env quoted [] cs).map (referred env name ++ ·)
    else (value? env quoted cs).map (referred env name ++ c :: ·)

/-- The value from inside a reference in braces on. -/
def braced? (env : String → Option String) (quoted : Bool) (name : List Char) :
    List Char → Option (List Char)
  | [] => none
  | c :: cs =>
    if c = '\x7d' then (value? env quoted cs).map (referred env name ++ ·)
    else braced? env quoted (name ++ [c]) cs

end

/-- The name that a text assigns to, and what follows the equals sign. -/
def assignee? (cs : List Char) : Option (String × List Char) := do
  let (name, rest) ← variableName? cs
  match Text.trimStart rest with
  | '=' :: rest => some (name, rest)
  | rest =>
    if name = "export" then
      let (name, rest) ← variableName? rest
      match Text.trimStart rest with
      | '=' :: rest => some (name, rest)
      | _ => none
    else none

/-- The assignment that a text is, or nothing for a text without any. -/
def assignment? (env : String → Option String) (text : List Char) : Option (Option (String × String)) :=
  let cs := Text.trimStart (Text.trimEnd text)
  if isVoid cs then some none
  else do
    let (name, rest) ← assignee? cs
    let rest := Text.trimStart rest
    if isVoid rest then some (some (name, ""))
    else (value? env false rest).map fun v => some (name, String.ofList v)

/-- The names that a text may refer to. -/
def mentioned : List Char → List String
  | [] => []
  | c :: cs =>
    if c = '$' then
      String.ofList (cs.takeWhile Char.isAlphanum) ::
        String.ofList ((cs.drop 1).takeWhile (· ≠ '\x7d')) :: mentioned cs
    else mentioned cs

end Settings
end TripleSql
