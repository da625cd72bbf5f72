/-
# Arguments

| option | value | where |
| --- | --- | --- |
| `--config` | a path | before or after the command |
| `--catalog` | a path | before or after the command |
| `--format` | `sql` or `json` | before or after the command |
| `--terminate` | none | before or after the command |
| `--query` | a path | after `compile`, needed |
| `--target` | a variable | after `compile`, any number of times |
| `--order-by` | a variable | after `compile` |
| `--desc` | none | after `compile`, needs `--order-by` |

The commands are `compile` and `teardown`. A value follows its option as the next argument, which may not start with a
hyphen unless it is one alone, or after an equals sign in the same argument. On one side of the command an option may
stand only once, save `--target`; of two on both sides the one after the command counts. A `--` may end the arguments.

Source: specification, 13; `Cli`, `CommonArgs`, `Command` and `CliConfig`.
-/

import TripleSql.Settings.Basic

namespace TripleSql
namespace CommandLine

/-- The options that stand on either side of the command. -/
structure Common where
  config : Option String := none
  catalog : Option String := none
  format : Option Format := none
  terminate : Bool := false
deriving DecidableEq, Repr

/-- The options of `compile`. -/
structure CompileOptions where
  query : Option String := none
  targets : List String := []
  orderBy : Option String := none
  descending : Bool := false
deriving DecidableEq, Repr

/-- What to do. -/
inductive Command where
  | compile (query : String) (targets : List String) (orderBy : Option String) (descending : Bool)
  | teardown
deriving DecidableEq, Repr

/-- What the arguments ask for. -/
structure Invocation where
  common : Common
  command : Command
deriving DecidableEq, Repr

/-- A text that may be the value of an option before it. -/
def isValue (s : String) : Bool := s = "-" || s.toList.head? ≠ some '-'

/-- An option with its value and the arguments after it, or a word. -/
inductive Piece where
  | flag (name : String)
  | valued (name value : String)
  | word (word : String)
deriving DecidableEq, Repr

/-- Splits an argument at its first equals sign. -/
def splitValue (s : String) : String × Option String :=
  let name := s.toList.takeWhile (· ≠ '=')
  if name.length < s.toList.length then
    (String.ofList name, some (String.ofList (s.toList.drop (name.length + 1))))
  else (s, none)

/-- The options that have a value. -/
def valuedNames : List String :=
  ["--config", "--catalog", "--format", "--query", "--target", "--order-by"]

/-- The options and words of arguments. -/
def pieces? : List String → Option (List Piece)
  | [] => some []
  | ["--"] => some []
  | a :: as =>
    if isValue a then (pieces? as).map (.word a :: ·)
    else
      match splitValue a with
      | (name, some value) =>
        if valuedNames.contains name then (pieces? as).map (.valued name value :: ·) else none
      | (name, none) =>
        if valuedNames.contains name then
          match as with
          | v :: as => if isValue v then (pieces? as).map (.valued name v :: ·) else none
          | [] => none
        else (pieces? as).map (.flag name :: ·)

/-- The value, if there is none yet. -/
def once? {α : Type} (old : Option α) (new : α) : Option (Option α) :=
  if old.isSome then none else some (some new)

/-- One more option of those that stand on either side, if it is one. -/
def Common.add? (c : Common) : Piece → Option Common
  | .flag "--terminate" => if c.terminate then none else some { c with terminate := true }
  | .valued "--config" v => (once? c.config v).map ({ c with config := · })
  | .valued "--catalog" v => (once? c.catalog v).map ({ c with catalog := · })
  | .valued "--format" v => do
    let f ← Format.ofName? v
    (once? c.format f).map ({ c with format := · })
  | _ => none

/-- One more option of `compile`, if it is one. -/
def CompileOptions.add? (o : CompileOptions) : Piece → Option CompileOptions
  | .flag "--desc" => if o.descending then none else some { o with descending := true }
  | .valued "--query" v => (once? o.query v).map ({ o with query := · })
  | .valued "--target" v => some { o with targets := o.targets ++ [v] }
  | .valued "--order-by" v => (once? o.orderBy v).map ({ o with orderBy := · })
  | _ => none

/-- The options after `compile`. -/
def compileOptions? (c : Common) (o : CompileOptions) : List Piece → Option (Common × CompileOptions)
  | [] => some (c, o)
  | p :: ps =>
    match o.add? p with
    | some o => compileOptions? c o ps
    | none => (c.add? p).bind fun c => compileOptions? c o ps

/-- The options before the command, and what follows them. -/
def commonOptions? (c : Common) : List Piece → Option (Common × List Piece)
  | .word w :: ps => some (c, .word w :: ps)
  | p :: ps => (c.add? p).bind fun c => commonOptions? c ps
  | [] => some (c, [])

/-- The command of the options of `compile`. -/
def CompileOptions.command? (o : CompileOptions) : Option Command :=
  if o.descending && o.orderBy.isNone then none
  else o.query.map fun q => .compile q o.targets o.orderBy o.descending

/-- Options on both sides of the command together. -/
def Common.orElse (after before : Common) : Common where
  config := after.config <|> before.config
  catalog := after.catalog <|> before.catalog
  format := after.format <|> before.format
  terminate := after.terminate || before.terminate

/-- What the arguments ask for, if they ask for something. -/
def parse? (args : List String) : Option Invocation := do
  let ps ← pieces? args
  let (before, rest) ← commonOptions? {} ps
  match rest with
  | .word "compile" :: ps => do
    let (after, o) ← compileOptions? {} {} ps
    return ⟨after.orElse before, ← o.command?⟩
  | .word "teardown" :: ps => do
    let (after, rest) ← commonOptions? {} ps
    if rest = [] then some ⟨after.orElse before, .teardown⟩ else none
  | _ => none

/-- The values for the settings. -/
def Common.override (c : Common) : Settings.Override := ⟨c.catalog, c.format, c.terminate⟩

end CommandLine
end TripleSql
