/-
# Names and literals in SQL text

| what | how it is written |
| --- | --- |
| plain name: an ASCII letter or `_`, then ASCII letters, digits, `_` | as it is |
| any other name | between double quotes, a double quote inside written twice |
| literal | between single quotes, a single quote inside written twice |
| column of a table | the two names with a dot between them |
| table with an alias | the name, then ` AS ` and the alias if the two differ |

A plain name is its own text, so a catalog of plain names never shows a double quote.

Source: specification, 6; `is_plain_identifier`, `quote_identifier`, `qualified_column`, `quote_literal` and
`declaration`.
-/

namespace TripleSql
namespace Sql

/-- An ASCII letter or an underscore. -/
def startsName (c : Char) : Bool := c.isAlpha || c == '_'

/-- An ASCII letter or digit or an underscore. -/
def continuesName (c : Char) : Bool := c.isAlphanum || c == '_'

/-- A name that SQL text can hold without quotes. -/
def isPlain (name : String) : Bool :=
  match name.toList with
  | [] => false
  | c :: cs => startsName c && cs.all continuesName

/-- The text with each `q` written twice. -/
def doubled (q : Char) : List Char → List Char
  | [] => []
  | c :: cs => if c = q then q :: q :: doubled q cs else c :: doubled q cs

/-- The text between two `q`, each `q` inside written twice. -/
def quoted (q : Char) (s : String) : String :=
  String.ofList (q :: (doubled q s.toList ++ [q]))

/-- A name as SQL text: quoted unless it is plain. -/
def quoteName (name : String) : String := if isPlain name then name else quoted '"' name

/-- A string value as SQL text. -/
def quoteLiteral (value : String) : String := quoted '\'' value

/-- A plain name is its own text. -/
theorem quoteName_of_isPlain {name : String} (h : isPlain name = true) : quoteName name = name := by
  simp [quoteName, h]

/-- A column named together with the alias of its table. -/
def qualified (tableAlias column : String) : String := quoteName tableAlias ++ "." ++ quoteName column

/-- A table in a `FROM` clause. -/
def declared (name aliasName : String) : String :=
  if name = aliasName then quoteName name else quoteName name ++ " AS " ++ quoteName aliasName

end Sql
end TripleSql
