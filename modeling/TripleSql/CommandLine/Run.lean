/-
# Runs

A run reads its settings from the file of `--config`, or else from the environment with the file `.env` behind it; puts the
values of the command line on top; loads the catalog; and carries out the command.

| outcome | exit code | shown |
| --- | --- | --- |
| done | 0 | statements, one on a line, or the document of a statement |
| arguments that ask for nothing | 2 | |
| any other failure | 1 | `Error: ` and the message, with the context before it and the cause after it |

How a file is read is a parameter, so a run is the same function of the files wherever they are.

Source: specification, 12 and 13; `run`, `load_catalog` and `compile`.
-/

import TripleSql.Catalog.File
import TripleSql.CommandLine.Arguments
import TripleSql.Compile.Session
import TripleSql.Document.Print
import TripleSql.Request.File
import TripleSql.Settings.Environment
import TripleSql.Sql.Document

namespace TripleSql
namespace CommandLine

/-- What a run leaves: its exit code, and what it wrote. -/
structure Outcome where
  code : Nat
  output : String := ""
  errors : String := ""
deriving DecidableEq, Repr

/-- A failure with its message. -/
def Outcome.failure (message : String) : Outcome :=
  { code := 1, errors := "Error: " ++ message ++ "\n" }

/-- The lines of a result, or a failure. -/
def Outcome.ofResult : Except String (List String) → Outcome
  | .ok lines => { code := 0, output := String.join (lines.map (· ++ "\n")) }
  | .error message => .failure message

/-- The message of an error of the settings, followed by its cause. -/
def settingsMessage (e : Settings.Error) : String := e.message ++ ": " ++ e.cause

/-- The message of a catalog that is not loaded. -/
def catalogMessage (path : String) (e : Catalog.Error) : String :=
  "Failed to load catalog " ++ path ++ ": " ++
    e.message?.getD "Failed to parse catalog: not the YAML of a catalog"

/-- The message of a request that is not loaded. -/
def requestMessage (path : String) (e : Request.Error) : String :=
  "Failed to load query " ++ path ++ ": " ++
    match e with
    | .misread (.node e) => "Failed to parse query file: " ++ e.message
    | e => e.message?.getD "Failed to parse query file: not the form of a query"

/-- The targets of a run: those of the command line, or else those of the request. -/
def targetsOf (path : String) (given : List String) (r : Request) : Except String (List String) :=
  let targets := if given = [] then r.targets else given
  if targets = [] then
    .error ("No target variables: pass --target or list `targets` in " ++ path)
  else .ok targets

/-- The direction of an ordering. -/
def directionOf (descending : Bool) : Sql.Direction := if descending then .descending else .ascending

/-- The ordering of a run: that of the command line, or else that of the request. -/
def orderingOf (given : Option String) (descending : Bool) (r : Request) :
    Option (String × Sql.Direction) :=
  match given with
  | some v => some (v, directionOf descending)
  | none => r.orderBy.map fun o => (o.variableName, directionOf o.descending)

/-- The session of a request with targets and perhaps an ordering. -/
def sessionOf (cat : Catalog) (r : Request) (targets : List String)
    (ordering : Option (String × Sql.Direction)) : Except Compile.Error Compile.Session :=
  let session := ({ catalog := cat, query := r.query : Compile.Session }).setTargets targets
  match ordering with
  | some (v, direction) => session.orderBy v direction
  | none => .ok session

/-- A statement as the settings want it shown. -/
def shown (s : Settings) (t : Sql.Statement) : String :=
  match s.format with
  | .sql => s.finish t.text
  | .json => t.toDocument.printLines 0

/-- What `compile` prints. -/
def compile (s : Settings) (cat : Catalog) (path : String) (content : Except File.Fault String)
    (targets : List String) (orderBy : Option String) (descending : Bool) :
    Except String (List String) := do
  let r ← (Request.ofFile path content).mapError (requestMessage path)
  let targets ← targetsOf path targets r
  let session ← (sessionOf cat r targets (orderingOf orderBy descending r)).mapError
    Compile.Error.message
  let t ← session.build.1.mapError Compile.Error.message
  return [shown s t]

/-- What `teardown` prints. -/
def teardown (s : Settings) (cat : Catalog) : List String := cat.teardown.map s.finish

variable {m : Type → Type} [Monad m]

/-- The settings of a run, before the values of the command line. Of files `.env` only that of the working directory is
read; the library that the program uses goes on to look in the directories above, one after the other, where there is
none. -/
def settings (env : String → Option String) (read : String → m (Except File.Fault String))
    (config : Option String) : m (Except Settings.Error Settings) := do
  match config with
  | some path => return Settings.ofFile (← read path)
  | none =>
    match ← read ".env" with
    | .ok content => return Settings.ofEnvironment (Settings.withFile env content)
    | .error (.notUtf8 before) => return Settings.ofEnvironment (Settings.withFile env before)
    | .error _ => return Settings.ofEnvironment env

/-- The command carried out with settings that are complete. -/
def perform (read : String → m (Except File.Fault String)) (s : Settings) (command : Command) :
    m (Except String (List String)) := do
  match Catalog.load s.catalogPath (← read s.catalogPath) with
  | .error e => return .error (catalogMessage s.catalogPath e)
  | .ok cat =>
    match command with
    | .teardown => return .ok (teardown s cat)
    | .compile query targets orderBy descending =>
      return compile s cat query (← read query) targets orderBy descending

/-- A run with arguments that ask for something. -/
def invoke (env : String → Option String) (read : String → m (Except File.Fault String))
    (i : Invocation) : m (Except String (List String)) := do
  match ← settings env read i.common.config with
  | .error e => return .error (settingsMessage e)
  | .ok s =>
    match (s.override i.common.override).check with
    | .error e => return .error ("Configuration error: " ++ e.cause)
    | .ok s => perform read s i.command

/-- A run. -/
def run (env : String → Option String) (read : String → m (Except File.Fault String))
    (args : List String) : m Outcome := do
  match parse? args with
  | none => return { code := 2 }
  | some i => return .ofResult (← invoke env read i)

end CommandLine
end TripleSql
