/-
# Blanks

The 25 code points with the Unicode property `White_Space`. They are what is trimmed from the ends of a
node and of an output format name, what may not occur inside a variable name, and what separates the words
of a comparison operator.

| code points | name |
| --- | --- |
| `0009` to `000D`, `0020` | tab, line feed, line tabulation, form feed, carriage return, space |
| `0085`, `00A0` | next line, no-break space |
| `1680`, `2000` to `200A` | ogham space mark, the typographic spaces |
| `2028`, `2029`, `202F`, `205F`, `3000` | line and paragraph separator, three wide spaces |

Trimming removes exactly the outer blanks: what is left starts and ends with none, and a text without outer
blanks is its own trimming.

Source: the Unicode property `White_Space`, by which the texts of nodes, operators and formats are trimmed and split.
-/

namespace TripleSql
namespace Text

/-- A character with the Unicode property `White_Space`. -/
def isBlank (c : Char) : Bool :=
  let n := c.toNat
  (0x9 ≤ n && n ≤ 0xD) || n == 0x20 || n == 0x85 || n == 0xA0 || n == 0x1680 ||
    (0x2000 ≤ n && n ≤ 0x200A) || n == 0x2028 || n == 0x2029 || n == 0x202F || n == 0x205F ||
    n == 0x3000

/-- A character without that property. -/
def isInk (c : Char) : Bool := !isBlank c

/-- The text from its first character that is no blank on. -/
def trimStart (cs : List Char) : List Char := cs.dropWhile isBlank

/-- The text up to its last character that is no blank. -/
def trimEnd (cs : List Char) : List Char := (cs.reverse.dropWhile isBlank).reverse

/-- The text without its outer blanks. -/
def trim (s : String) : String := String.ofList (trimEnd (trimStart s.toList))

/-- A text of blanks alone, the empty one among them. -/
def isEmptyOrBlank (s : String) : Bool := s.toList.all isBlank

/-- The maximal runs of characters that are no blanks, in order. -/
def words : List Char → List (List Char)
  | [] => []
  | c :: cs =>
    if isBlank c then words cs
    else if cs.head?.any isInk then
      match words cs with
      | w :: ws => (c :: w) :: ws
      | [] => [[c]]
    else [c] :: words cs

end Text
end TripleSql
