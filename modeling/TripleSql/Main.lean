/-
# The program

Runs the command line on the files and the environment of the system.

Source: specification, 13; `main`.
-/

import TripleSql.CommandLine.Run

namespace TripleSql

/-- The fault that the system reports. -/
def faultOf : IO.Error → File.Fault
  | .noFileOrDirectory .. => .notFound
  | .noSuchThing .. => .notFound
  | .inappropriateType _ code _ =>
    if code = 21 then .isDirectory else .other "Not a directory (os error 20)"
  | .permissionDenied .. => .other "Permission denied (os error 13)"
  | .invalidArgument .. => .other "File name too long (os error 36)"
  | e => .other (toString e)

/-- The text of a file of the system. -/
def readText (path : String) : IO (Except File.Fault String) := do
  try
    return File.ofBytes (← IO.FS.readBinFile path)
  catch e =>
    return .error (faultOf e)

/-- The names of the variables that a run may ask for: those of the settings, and those that `.env` mentions. -/
def namesToRead : IO (List String) := do
  let own := ["TRIPLEGRAPH_CATALOG", "TRIPLEGRAPH_FORMAT", "TRIPLEGRAPH_TERMINATE"]
  match ← readText ".env" with
  | .ok content => return own ++ Settings.namesIn content
  | .error _ => return own

/-- The value of a variable among those that were read. -/
def valueIn (values : List (String × Option String)) (name : String) : Option String :=
  (values.lookup name).join

end TripleSql

/-- Runs the program. -/
def main (args : List String) : IO UInt32 := do
  let mut values := []
  for name in ← TripleSql.namesToRead do
    values := (name, ← IO.getEnv name) :: values
  let outcome ← TripleSql.CommandLine.run (TripleSql.valueIn values) TripleSql.readText args
  IO.print outcome.output
  IO.eprint outcome.errors
  return outcome.code.toUInt32
