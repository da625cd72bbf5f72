/-
# Tokens of YAML

A text of YAML as a list of tokens. In block style the indentation decides where a collection starts and ends: a token
opens a collection at a column to the right of the innermost open one, and closes every collection to its right.

A scalar or a flow collection may turn out to be a key when a colon follows it on the same line, at most 1024 bytes
after its start. The tokens that mark the key, and the start of a table if the key opens one, are then put in front of
it. While a key is possible, the tokens from it on are not final: if the text turns out to be no YAML, the list ends
before the earliest possible key.

The text is read as positioned characters, one for each line break however it is written. Not covered are anchors,
aliases, tags, directives and block scalars: their indicators start no token.

Source: YAML 1.1 as the library that reads catalogs, requests and settings has it.
-/

import TripleSql.Document.Json

namespace TripleSql
namespace Document
namespace Yaml

/-- The parts of a text that structure is read from. -/
inductive Token where
  /-- The text is no YAML from here on. -/
  | bad
  | streamEnd
  | documentStart
  | documentEnd
  | blockListStart
  | blockTableStart
  | blockEnd
  | flowListStart
  | flowListEnd
  | flowTableStart
  | flowTableEnd
  | blockEntry
  | flowEntry
  | key
  | value
  | scalar (text : String) (isBare : Bool)
deriving DecidableEq, Repr

/-- A character and its place; the index counts the bytes of UTF-8 before it. -/
structure Spot where
  char : Char
  index : Nat
  line : Nat
  column : Nat
deriving Repr

/-- A character that a text may hold. -/
def isAllowed (c : Char) : Bool :=
  let n := c.toNat
  n = 0x9 || n = 0xA || n = 0xD || (0x20 ≤ n && n ≤ 0x7E) || n = 0x85 ||
    (0xA0 ≤ n && n ≤ 0xFFFD) || 0x10000 ≤ n

/-- A character that ends a line. -/
def isBreak (c : Char) : Bool :=
  c = '\n' || c = '\r' || c = '\u0085' || c = '\u2028' || c = '\u2029'

/-- A space or a tab. -/
def isGap (c : Char) : Bool := c = ' ' || c = '\t'

/-- The characters of a text with their places. A line break is read as a line feed, save the two separators of Unicode,
which are read as themselves. -/
def spots (index line column : Nat) : List Char → List Spot
  | [] => []
  | '\r' :: '\n' :: cs => ⟨'\n', index, line, column⟩ :: spots (index + 2) (line + 1) 0 cs
  | c :: cs =>
    if isBreak c then
      ⟨if c = '\u2028' || c = '\u2029' then c else '\n', index, line, column⟩ ::
        spots (index + c.utf8Size) (line + 1) 0 cs
    else ⟨c, index, line, column⟩ :: spots (index + c.utf8Size) line (column + 1) cs

/-- A space, a tab, a line break or the end of the text comes next. -/
def isSpaced : List Spot → Bool
  | [] => true
  | s :: _ => isGap s.char || isBreak s.char

/-- The text starts with a mark of three characters at the start of a line. -/
def startsMark (mark : Char) : List Spot → Bool
  | a :: b :: c :: rest =>
    a.column = 0 && a.char = mark && b.char = mark && c.char = mark && isSpaced rest
  | _ => false

/-- The start or the end of a document is marked here. -/
def startsAnyMark (rest : List Spot) : Bool := startsMark '-' rest || startsMark '.' rest

/-- What the spaces and line breaks inside a scalar stand for: spaces for themselves, a single line break for a space, and
more line breaks for all but the first. -/
def folded (gap : List Char) : List Char :=
  match gap.filter isBreak with
  | [] => gap
  | ['\n'] => [' ']
  | '\n' :: breaks => breaks
  | breaks => breaks

/-- A scalar in single quotes, from after its first quote on, and what follows it. -/
def singleQuoted (gap : List Char) : List Spot → Option (List Char × List Spot)
  | [] => none
  | s :: rest =>
    if isGap s.char || isBreak s.char then singleQuoted (gap ++ [s.char]) rest
    else if startsAnyMark (s :: rest) then none
    else if s.char = '\'' then
      match rest with
      | t :: rest' =>
        if t.char = '\'' then
          (singleQuoted [] rest').map fun r => (folded gap ++ '\'' :: r.1, r.2)
        else some (folded gap, t :: rest')
      | [] => some (folded gap, [])
    else (singleQuoted [] rest).map fun r => (folded gap ++ s.char :: r.1, r.2)

/-- The character that a letter after a backslash stands for. -/
def escape? (c : Char) : Option Char :=
  match c with
  | '0' => some '\x00'
  | 'a' => some '\x07'
  | 'b' => some '\x08'
  | 't' => some '\t'
  | '\t' => some '\t'
  | 'n' => some '\n'
  | 'v' => some '\x0b'
  | 'f' => some '\x0c'
  | 'r' => some '\r'
  | 'e' => some '\x1b'
  | ' ' => some ' '
  | '"' => some '"'
  | '/' => some '/'
  | '\\' => some '\\'
  | 'N' => some '\u0085'
  | '_' => some '\u00a0'
  | 'L' => some '\u2028'
  | 'P' => some '\u2029'
  | _ => none

/-- The number of digits of base 16 that follow a letter after a backslash. -/
def escapeWidth? (c : Char) : Option Nat :=
  match c with
  | 'x' => some 2
  | 'u' => some 4
  | 'U' => some 8
  | _ => none

/-- The character with the number that the digits spell. -/
def coded? (digits : List Char) : Option Char := do
  let n ← digits.foldlM (fun n c => (Json.hexValue? c).map (n * 16 + ·)) 0
  if h : n.isValidChar then some (Char.ofNatAux n h) else none

/-- A scalar in double quotes, from after its first quote on, and what follows it. `joined` holds after a line break that a
backslash takes away; `width` is the number of digits that a character is still waiting for, and `digits` are those that it
has. -/
def doubleQuoted (joined : Bool) (gap : List Char) (width : Nat) (digits : List Char) :
    List Spot → Option (List Char × List Spot)
  | [] => none
  | s :: rest =>
    let before := if joined then gap.filter isBreak else folded gap
    if width > 1 then doubleQuoted joined gap (width - 1) (digits ++ [s.char]) rest
    else if width = 1 then do
      let c ← coded? (digits ++ [s.char])
      (doubleQuoted false [] 0 [] rest).map fun r => (before ++ c :: r.1, r.2)
    else if isGap s.char || isBreak s.char then doubleQuoted joined (gap ++ [s.char]) 0 [] rest
    else if startsAnyMark (s :: rest) then none
    else if s.char = '"' then some (before, rest)
    else if s.char = '\\' then
      match rest with
      | [] => none
      | t :: rest' =>
        if isBreak t.char then
          (doubleQuoted true [] 0 [] rest').map fun r => (before ++ r.1, r.2)
        else
          match escapeWidth? t.char with
          | some w => doubleQuoted joined gap w [] rest'
          | none => do
            let c ← escape? t.char
            (doubleQuoted false [] 0 [] rest').map fun r => (before ++ c :: r.1, r.2)
    else (doubleQuoted false [] 0 [] rest).map fun r => (before ++ s.char :: r.1, r.2)

/-- The character ends a bare scalar in flow style. -/
def isFlowIndicator (c : Char) : Bool := c = ',' || c = '[' || c = ']' || c = '\x7b' || c = '\x7d'

/-- A colon in flow style with a flow indicator after it is an error inside a bare scalar. -/
def isBadColon : List Spot → Bool
  | s :: t :: _ => s.char = ':' && (t.char = '?' || isFlowIndicator t.char)
  | _ => false

/-- A bare scalar ends here: at a colon with a space after it, and in flow style at an indicator. -/
def endsBare (inFlow : Bool) : List Spot → Bool
  | [] => true
  | s :: rest => (s.char = ':' && isSpaced rest) || (inFlow && isFlowIndicator s.char)

/-- A bare scalar may not go on here after spaces or line breaks: at a comment, at a mark, or in block style to the left of
its margin. -/
def stopsBare (inFlow : Bool) (margin : Nat) : List Spot → Bool
  | [] => true
  | s :: rest => s.char = '#' || startsAnyMark (s :: rest) || (!inFlow && s.column < margin)

/-- A bare scalar, whether a line break follows it, and what follows both. -/
def bareScalar (inFlow : Bool) (margin : Nat) (gap : List Char) :
    List Spot → Option (List Char × Bool × List Spot)
  | [] => some ([], gap.any isBreak, [])
  | s :: rest =>
    if isGap s.char then
      if s.char = '\t' && gap.any isBreak && s.column < margin then none
      else bareScalar inFlow margin (gap ++ [s.char]) rest
    else if isBreak s.char then bareScalar inFlow margin (gap ++ [s.char]) rest
    else if gap ≠ [] && stopsBare inFlow margin (s :: rest) then
      some ([], gap.any isBreak, s :: rest)
    else if inFlow && isBadColon (s :: rest) then none
    else if endsBare inFlow (s :: rest) then some ([], gap.any isBreak, s :: rest)
    else (bareScalar inFlow margin [] rest).map fun r => (folded gap ++ s.char :: r.1, r.2)

/-- What comes between two tokens: spaces, comments, line breaks, and a byte order mark at the start of a line. A line break
in block style allows a key, and a tab is not skipped where a key is allowed. -/
def toToken (inFlow keyAllowed inComment : Bool) : List Spot → Bool × List Spot
  | [] => (keyAllowed, [])
  | s :: rest =>
    if isBreak s.char then toToken inFlow (keyAllowed || !inFlow) false rest
    else if inComment then toToken inFlow keyAllowed true rest
    else if s.char = ' ' || (s.char = '\t' && (inFlow || !keyAllowed)) then
      toToken inFlow keyAllowed false rest
    else if s.char = '\ufeff' && s.column = 0 then toToken inFlow keyAllowed false rest
    else if s.char = '#' then toToken inFlow keyAllowed true rest
    else (keyAllowed, s :: rest)

/-- A bare scalar may start here. -/
def startsBare (inFlow : Bool) : List Spot → Bool
  | [] => false
  | s :: rest =>
    !(isGap s.char || isBreak s.char ||
      ['-', '?', ':', ',', '[', ']', '\x7b', '\x7d', '#', '&', '*', '!', '|', '>', '\'', '"', '%',
        '@', '\x60'].contains s.char) ||
    (s.char = '-' && !(rest.head?.any fun t => isGap t.char)) ||
    (!inFlow && (s.char = '?' || s.char = ':') && !isSpaced rest)

/-- A token that may be a key, if a colon follows. -/
structure PossibleKey where
  number : Nat
  spot : Spot
  /-- Nothing but a key can stand here. -/
  required : Bool

/-- What is read of a text so far. -/
structure Lexer where
  rest : List Spot
  /-- The newest token first. -/
  tokens : List Token := []
  count : Nat := 0
  /-- The key that is possible at each level of flow collections, the innermost first and block style last. -/
  keys : List (Option PossibleKey) := [none]
  /-- The columns of the open block collections, the innermost first. -/
  blocks : List Nat := []
  keyAllowed : Bool := true

namespace Lexer

/-- A flow collection is open. -/
def inFlow (lx : Lexer) : Bool := lx.keys.length > 1

/-- The least column that belongs to the innermost block collection. -/
def margin (lx : Lexer) : Nat := (lx.blocks.head?.map (· + 1)).getD 0

/-- One more token. -/
def emit (lx : Lexer) (t : Token) : Lexer := { lx with tokens := t :: lx.tokens, count := lx.count + 1 }

/-- One more token, in front of the one with the given number. -/
def insert (lx : Lexer) (number : Nat) (t : Token) : Lexer :=
  { lx with tokens := lx.tokens.insertIdx (lx.count - number) t, count := lx.count + 1 }

/-- The key of the innermost level is not possible any more. -/
def dropKey (lx : Lexer) : Option Lexer :=
  match lx.keys with
  | some k :: ks => if k.required then none else some { lx with keys := none :: ks }
  | _ => some lx

/-- The next token may be a key, if one is allowed. -/
def saveKey (lx : Lexer) (s : Spot) : Option Lexer :=
  if lx.keyAllowed then do
    let lx ← lx.dropKey
    return { lx with
      keys := some ⟨lx.count, s, !lx.inFlow && lx.blocks.head? = some s.column⟩ :: lx.keys.drop 1 }
  else some lx

/-- A key is not possible any more after its line or 1024 bytes. -/
def isStale (s : Spot) (k : PossibleKey) : Bool :=
  k.spot.line < s.line || k.spot.index + 1024 < s.index

/-- Keys that a place is too far from are dropped. -/
def dropStale (lx : Lexer) (s : Spot) : Option Lexer :=
  if lx.keys.any (·.any fun k => isStale s k && k.required) then none
  else some { lx with keys := lx.keys.map (·.filter (!isStale s ·)) }

/-- The block collections to the right of a column end, all of them without a column. -/
def unroll (lx : Lexer) (column? : Option Nat) : Lexer :=
  if lx.inFlow then lx
  else
    let isOpen : Nat → Bool := fun c => column?.any (c ≤ ·)
    let lx' := (lx.blocks.takeWhile (!isOpen ·)).foldl (fun lx _ => lx.emit .blockEnd) lx
    { lx' with blocks := lx.blocks.dropWhile (!isOpen ·) }

/-- A block collection starts at a column to the right of the innermost one, its token in front of the one with the given
number. -/
def roll (lx : Lexer) (column number : Nat) (t : Token) : Lexer :=
  if lx.inFlow || column < lx.margin then lx
  else { lx.insert number t with blocks := column :: lx.blocks }

/-- A mark of a document. -/
def mark (lx : Lexer) (t : Token) : Option Lexer := do
  let lx ← (lx.unroll none).dropKey
  return { lx.emit t with rest := lx.rest.drop 3, keyAllowed := false }

/-- A flow collection starts. -/
def openFlow (lx : Lexer) (s : Spot) (t : Token) : Option Lexer := do
  let lx ← lx.saveKey s
  return { lx.emit t with keys := none :: lx.keys, keyAllowed := true, rest := lx.rest.drop 1 }

/-- A flow collection ends. -/
def closeFlow (lx : Lexer) (t : Token) : Option Lexer := do
  let lx ← lx.dropKey
  let keys := if lx.inFlow then lx.keys.drop 1 else lx.keys
  return { lx.emit t with keys, keyAllowed := false, rest := lx.rest.drop 1 }

/-- A comma in flow style. -/
def separate (lx : Lexer) : Option Lexer := do
  let lx ← lx.dropKey
  return { lx.emit .flowEntry with keyAllowed := true, rest := lx.rest.drop 1 }

/-- A dash of a block list. -/
def startItem (lx : Lexer) (s : Spot) : Option Lexer := do
  if !lx.inFlow && !lx.keyAllowed then none
  else
    let lx ← (lx.roll s.column lx.count .blockListStart).dropKey
    return { lx.emit .blockEntry with keyAllowed := true, rest := lx.rest.drop 1 }

/-- A question mark in front of a key. -/
def startKey (lx : Lexer) (s : Spot) : Option Lexer := do
  if !lx.inFlow && !lx.keyAllowed then none
  else
    let lx ← (lx.roll s.column lx.count .blockTableStart).dropKey
    return { lx.emit .key with keyAllowed := !lx.inFlow, rest := lx.rest.drop 1 }

/-- A colon in front of a value. -/
def startValue (lx : Lexer) (s : Spot) : Option Lexer :=
  match lx.keys with
  | some k :: ks =>
    let lx := (lx.insert k.number .key).roll k.spot.column k.number .blockTableStart
    some { lx.emit .value with keys := none :: ks, keyAllowed := false, rest := lx.rest.drop 1 }
  | _ =>
    if !lx.inFlow && !lx.keyAllowed then none
    else
      let lx := lx.roll s.column lx.count .blockTableStart
      some { lx.emit .value with keyAllowed := !lx.inFlow, rest := lx.rest.drop 1 }

/-- A scalar in quotes. -/
def quoted (lx : Lexer) (s : Spot) (read : List Spot → Option (List Char × List Spot)) :
    Option Lexer := do
  let lx ← lx.saveKey s
  let (text, rest) ← read (lx.rest.drop 1)
  return { lx.emit (.scalar (String.ofList text) false) with keyAllowed := false, rest }

/-- A bare scalar; a line break after it allows a key. -/
def bare (lx : Lexer) (s : Spot) : Option Lexer := do
  let lx ← lx.saveKey s
  let (text, broken, rest) ← bareScalar lx.inFlow lx.margin [] lx.rest
  return { lx.emit (.scalar (String.ofList text) true) with keyAllowed := broken, rest }

/-- The token at the start of what is left, which is not empty. -/
def token (lx : Lexer) (s : Spot) : Option Lexer :=
  let rest := lx.rest
  if startsMark '-' rest then lx.mark .documentStart
  else if startsMark '.' rest then lx.mark .documentEnd
  else if s.char = '[' then lx.openFlow s .flowListStart
  else if s.char = '\x7b' then lx.openFlow s .flowTableStart
  else if s.char = ']' then lx.closeFlow .flowListEnd
  else if s.char = '\x7d' then lx.closeFlow .flowTableEnd
  else if s.char = ',' then lx.separate
  else if s.char = '-' && isSpaced (rest.drop 1) then lx.startItem s
  else if s.char = '?' && (lx.inFlow || isSpaced (rest.drop 1)) then lx.startKey s
  else if s.char = ':' && (lx.inFlow || isSpaced (rest.drop 1)) then lx.startValue s
  else if s.char = '\'' then lx.quoted s (singleQuoted [])
  else if s.char = '"' then lx.quoted s (doubleQuoted false [] 0 [])
  else if startsBare lx.inFlow rest then lx.bare s
  else none

/-- The next token with what it closes, or the end of the text. -/
def step (lx : Lexer) : Option Lexer :=
  let (keyAllowed, rest) := toToken lx.inFlow lx.keyAllowed false lx.rest
  let lx := { lx with keyAllowed, rest }
  match rest with
  | [] => do
    let lx ← (lx.unroll none).dropKey
    return lx.emit .streamEnd
  | s :: _ => do
    let lx ← lx.dropStale s
    (lx.unroll (some s.column)).token s

/-- The number of the earliest token that may still turn out to be a key. -/
def firstPossible (lx : Lexer) : Nat :=
  let isOpen : PossibleKey → Bool := fun k => lx.rest.head?.all (!isStale · k)
  lx.keys.foldl (fun n k => ((k.filter isOpen).map fun k => min n k.number).getD n) lx.count

/-- The tokens of the text, at most as many steps as given. -/
def run (lx : Lexer) : Nat → List Token
  | 0 => [.bad]
  | n + 1 =>
    match lx.step with
    | none => lx.tokens.reverse.take lx.firstPossible ++ [.bad]
    | some lx =>
      match lx.tokens with
      | .streamEnd :: _ => lx.tokens.reverse
      | _ => lx.run n

end Lexer

/-- The tokens of a text. Every step but the last takes a character. -/
def tokens (s : String) : List Token :=
  if s.toList.all isAllowed then
    let spots := spots 0 0 0 s.toList
    { rest := spots : Lexer }.run (spots.length + 1)
  else [.bad]

end Yaml
end Document
end TripleSql
