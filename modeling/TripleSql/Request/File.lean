/-
# Request files

A request file holds JSON if its name ends so, and YAML otherwise.

Source: specification, 12; `from_file` of `QueryFile` and `QueryModelError`.
-/

import TripleSql.File
import TripleSql.Request.Read

namespace TripleSql
namespace Request

/-- Why there is no request. -/
inductive Error where
  | unreadable (path cause : String)
  | misread (cause : Misread)
deriving DecidableEq, Repr

/-- The message of an error; a file of the wrong form has none of its own. -/
def Error.message? : Error → Option String
  | unreadable path cause => some ("Failed to read query file: " ++ path ++ ": " ++ cause)
  | misread _ => none

/-- The request of a file. -/
def ofFile (path : String) : Except File.Fault String → Except Error Request
  | .ok text => (if File.isJson path then ofJson text else ofYaml text).mapError .misread
  | .error fault => .error (.unreadable path fault.message)

end Request
end TripleSql
