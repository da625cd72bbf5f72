/-
# Settings

Where the catalog is, how statements are shown, and whether they end in a semicolon. They come from a file of YAML or
from three environment variables, and values given on the command line go on top.

| setting | field | variable | if missing |
| --- | --- | --- | --- |
| path of the catalog | `catalog_path` | `TRIPLEGRAPH_CATALOG` | `catalog.yaml`; in a file it may not be missing |
| format | `format` | `TRIPLEGRAPH_FORMAT` | `sql` |
| semicolon | `terminate_statements` | `TRIPLEGRAPH_TERMINATE` | `false` |

In a variable the format may have blanks around it and any ASCII case; in a file it is exactly `sql` or `json`. The path
may not be empty. It is checked when settings are read and once more when the values of the command line are in place.

Source: specification, 12; `TranslatorConfig` with `from_env`, `from_yaml_file`, `merge`, `validate` and
`finish_statement`, `OutputFormat`, `ConfigError` and `parse_env_var`.
-/

import TripleSql.Document.Dialect
import TripleSql.Document.Yaml.Content
import TripleSql.File
import TripleSql.Text.Blank

namespace TripleSql

/-- How a statement is shown. -/
inductive Format where
  | sql
  | json
deriving DecidableEq, Repr

/-- Where the catalog is and how statements are shown. -/
structure Settings where
  catalogPath : String := "catalog.yaml"
  format : Format := .sql
  terminate : Bool := false
deriving DecidableEq, Repr

namespace Format

/-- The name of a format. -/
def text : Format → String
  | sql => "sql"
  | json => "json"

/-- The format of exactly that name. -/
def ofName? (s : String) : Option Format :=
  if s = "sql" then some sql else if s = "json" then some json else none

/-- The format that a text names, apart from outer blanks and ASCII case. -/
def ofText? (s : String) : Option Format :=
  ofName? (String.ofList ((Text.trim s).toList.map Char.toLower))

/-- What is said of a text that names no format. -/
def unknownMessage (s : String) : String :=
  "unknown output format `" ++ s ++ "` (expected `sql` or `json`)"

end Format

namespace Settings

/-- Why there are no settings. -/
inductive Error where
  | unreadable (cause : String)
  | malformed (content : String)
  | unknownFormat (value : String)
  | noTruthValue (value : String)
  | emptyCatalogPath
deriving DecidableEq, Repr

namespace Error

/-- What was being read, and its value, if something was. -/
def field? : Error → Option (String × String)
  | unreadable _ => some ("yaml_file", "file read failed")
  | malformed content => some ("yaml_content", content)
  | unknownFormat value => some ("TRIPLEGRAPH_FORMAT", value)
  | noTruthValue value => some ("TRIPLEGRAPH_TERMINATE", value)
  | emptyCatalogPath => none

/-- The cause of an error. -/
def cause : Error → String
  | unreadable cause => cause
  | malformed _ => "not the YAML of a configuration"
  | unknownFormat value => Format.unknownMessage value
  | noTruthValue _ => "provided string was not `true` or `false`"
  | emptyCatalogPath => "catalog_path: Catalog path cannot be empty"

/-- The message of an error, with its cause. -/
def message (e : Error) : String :=
  match e.field? with
  | some (field, value) => "Parse error for " ++ field ++ ": " ++ value ++ " - " ++ e.cause
  | none => "Validation error: " ++ e.cause

end Error

/-- The settings, if the path of the catalog is not empty. -/
def check (s : Settings) : Except Error Settings :=
  if s.catalogPath = "" then .error .emptyCatalogPath else .ok s

/-- The format that a variable names. -/
def formatOf : Option String → Except Error Format
  | none => .ok .sql
  | some s =>
    match Format.ofText? s with
    | some f => .ok f
    | none => .error (.unknownFormat s)

/-- The truth value that a variable spells. -/
def truthOf : Option String → Except Error Bool
  | none => .ok false
  | some s =>
    if s = "true" then .ok true else if s = "false" then .ok false else .error (.noTruthValue s)

/-- The settings of environment variables. -/
def ofEnvironment (env : String → Option String) : Except Error Settings := do
  let format ← formatOf (env "TRIPLEGRAPH_FORMAT")
  let terminate ← truthOf (env "TRIPLEGRAPH_TERMINATE")
  check {
    catalogPath := (env "TRIPLEGRAPH_CATALOG").getD "catalog.yaml"
    format
    terminate }

/-- The settings that a document holds. -/
def ofDocument? (d : Document) : Option Settings := do
  let fields ← Dialect.yaml.fields? ["catalog_path", "format", "terminate_statements"] d
  return {
    catalogPath := ← Dialect.field? "catalog_path" none Dialect.yaml.text? fields
    format := ← Dialect.field? "format" (some .sql)
      (fun v => (Dialect.yaml.text? v).bind Format.ofName?) fields
    terminate := ← Dialect.field? "terminate_statements" (some false) Dialect.bool? fields }

/-- The settings that a text of YAML holds. -/
def ofYaml (s : String) : Except Error Settings :=
  match (Document.Yaml.parse? s).bind ofDocument? with
  | some settings => settings.check
  | none => .error (.malformed s)

/-- The settings of a file. -/
def ofFile : Except File.Fault String → Except Error Settings
  | .ok text => ofYaml text
  | .error fault => .error (.unreadable fault.message)

/-- Values that go on top of settings. -/
structure Override where
  catalogPath : Option String := none
  format : Option Format := none
  terminate : Bool := false
deriving DecidableEq, Repr

/-- The settings with the values that are given instead of their own; a semicolon once asked for stays. -/
def override (s : Settings) (o : Override) : Settings where
  catalogPath := o.catalogPath.getD s.catalogPath
  format := o.format.getD s.format
  terminate := s.terminate || o.terminate

/-- A statement as it is shown. -/
def finish (s : Settings) (statement : String) : String :=
  if s.terminate then statement ++ ";" else statement

/-- The document of settings. -/
def toDocument (s : Settings) : Document :=
  .record [
    ("catalog_path", .ofText s.catalogPath),
    ("format", .ofText s.format.text),
    ("terminate_statements", .ofBool s.terminate)]

end Settings
end TripleSql
