/-
# Documents of YAML

A document is read from tokens. Where a value is missing, after a dash, a key or a colon, it is an empty bare scalar, and
so is the content of a document without any.

| tokens | document |
| --- | --- |
| list start, entries, end | a list, in block style also without start and end where a key was just read |
| table start, keys and values, end | a table |
| `[`, items and commas, `]` | a list; an item with a key is a table of one entry |
| `{`, keys and values and commas, `}` | a table |

A comma may stand before a closing bracket. In a flow list a key without text that has no value takes the token after it
with it, be it a comma or a bracket.

Source: YAML 1.1 as the library that reads catalogs, requests and settings has it.
-/

import TripleSql.Document.Yaml.Scalar
import TripleSql.Document.Yaml.Token

namespace TripleSql
namespace Document
namespace Yaml

/-- A value that is missing. -/
def missing : Document := bare ""

/-- The value is missing before one of these tokens. -/
def isMissing (enders ts : List Token) : Bool := ts.head?.any enders.contains

mutual

/-- A value; the bound is on the parts of it. In block style it may be a block collection, and where `dashed` holds a list
without a start. -/
def value? (block dashed : Bool) : Nat → List Token → Option (Document × List Token)
  | 0, _ => none
  | n + 1, ts =>
    match ts with
    | .scalar s isBare :: ts => some (if isBare then bare s else ofText s, ts)
    | .flowListStart :: ts => (flowItems? true n ts).map fun r => (.list r.1, r.2)
    | .flowTableStart :: ts => (flowEntries? true n ts).map fun r => (.table r.1, r.2)
    | .blockListStart :: ts =>
      if block then (blockItems? n ts).map fun r => (.list r.1, r.2) else none
    | .blockTableStart :: ts =>
      if block then (blockEntries? n ts).map fun r => (.table r.1, r.2) else none
    | .blockEntry :: _ =>
      if dashed then (dashedItems? n ts).map fun r => (.list r.1, r.2) else none
    | _ => none

/-- A value, or a missing one before one of the given tokens. -/
def valueOr? (enders : List Token) (block dashed : Bool) :
    Nat → List Token → Option (Document × List Token)
  | 0, _ => none
  | n + 1, ts => if isMissing enders ts then some (missing, ts) else value? block dashed n ts

/-- The items of a block list and its end. -/
def blockItems? : Nat → List Token → Option (List Document × List Token)
  | 0, _ => none
  | n + 1, ts =>
    match ts with
    | .blockEntry :: ts => do
      let (d, ts) ← valueOr? [.blockEntry, .blockEnd] true false n ts
      (blockItems? n ts).map fun r => (d :: r.1, r.2)
    | .blockEnd :: ts => some ([], ts)
    | _ => none

/-- The items of a list without a start, up to a token that is no dash. -/
def dashedItems? : Nat → List Token → Option (List Document × List Token)
  | 0, _ => none
  | n + 1, ts =>
    match ts with
    | .blockEntry :: ts => do
      let (d, ts) ← valueOr? [.blockEntry, .key, .value, .blockEnd] true false n ts
      (dashedItems? n ts).map fun r => (d :: r.1, r.2)
    | .bad :: _ => none
    | ts => some ([], ts)

/-- The entries of a block table and its end. -/
def blockEntries? : Nat → List Token → Option (List (Document × Document) × List Token)
  | 0, _ => none
  | n + 1, ts =>
    match ts with
    | .key :: ts => do
      let (k, ts) ← valueOr? [.key, .value, .blockEnd] true true n ts
      blockValue? k n ts
    | .blockEnd :: ts => some ([], ts)
    | _ => none

/-- The value of a key in a block table, and the entries after it. -/
def blockValue? (k : Document) : Nat → List Token → Option (List (Document × Document) × List Token)
  | 0, _ => none
  | n + 1, ts =>
    match ts with
    | .value :: ts => do
      let (v, ts) ← valueOr? [.key, .value, .blockEnd] true true n ts
      (blockEntries? n ts).map fun r => ((k, v) :: r.1, r.2)
    | .bad :: _ => none
    | ts => (blockEntries? n ts).map fun r => ((k, missing) :: r.1, r.2)

/-- The items of a flow list and its end. -/
def flowItems? (first : Bool) : Nat → List Token → Option (List Document × List Token)
  | 0, _ => none
  | n + 1, ts =>
    match ts with
    | .flowListEnd :: ts => some ([], ts)
    | .flowEntry :: ts => if first then none else flowItem? n ts
    | ts => if first then flowItem? n ts else none

/-- An item of a flow list after a comma or at the start, or the end of the list. -/
def flowItem? : Nat → List Token → Option (List Document × List Token)
  | 0, _ => none
  | n + 1, ts =>
    match ts with
    | .flowListEnd :: ts => some ([], ts)
    | .key :: ts => do
      let (d, ts) ← flowPair? n ts
      (flowItems? false n ts).map fun r => (d :: r.1, r.2)
    | ts => do
      let (d, ts) ← value? false false n ts
      (flowItems? false n ts).map fun r => (d :: r.1, r.2)

/-- An item with a key, from after the key's mark on. -/
def flowPair? : Nat → List Token → Option (Document × List Token)
  | 0, _ => none
  | n + 1, ts => do
    let (k, ts) ←
      if isMissing [.value, .flowEntry, .flowListEnd] ts then some (missing, ts.drop 1)
      else value? false false n ts
    let (v, ts) ← flowValue? [.flowEntry, .flowListEnd] n ts
    return (.table [(k, v)], ts)

/-- The value of a key in flow style, which may be missing with its colon. -/
def flowValue? (enders : List Token) : Nat → List Token → Option (Document × List Token)
  | 0, _ => none
  | n + 1, ts =>
    match ts with
    | .value :: ts => valueOr? enders false false n ts
    | .bad :: _ => none
    | ts => some (missing, ts)

/-- The entries of a flow table and its end. -/
def flowEntries? (first : Bool) : Nat → List Token → Option (List (Document × Document) × List Token)
  | 0, _ => none
  | n + 1, ts =>
    match ts with
    | .flowTableEnd :: ts => some ([], ts)
    | .flowEntry :: ts => if first then none else flowTableEntry? n ts
    | ts => if first then flowTableEntry? n ts else none

/-- An entry of a flow table after a comma or at the start, or the end of the table. -/
def flowTableEntry? : Nat → List Token → Option (List (Document × Document) × List Token)
  | 0, _ => none
  | n + 1, ts =>
    match ts with
    | .flowTableEnd :: ts => some ([], ts)
    | .key :: ts => do
      let (k, ts) ← valueOr? [.value, .flowEntry, .flowTableEnd] false false n ts
      let (v, ts) ← flowValue? [.flowEntry, .flowTableEnd] n ts
      (flowEntries? false n ts).map fun r => ((k, v) :: r.1, r.2)
    | ts => do
      let (k, ts) ← value? false false n ts
      (flowEntries? false n ts).map fun r => ((k, missing) :: r.1, r.2)

end

/-- The first document of a text, and the tokens after it. Every part of a document but a missing one has a token of its
own, and at most three steps lie between two parts. -/
def read? (s : String) : Option (Document × List Token) :=
  let ts := tokens s
  let content := valueOr? [.documentStart, .documentEnd, .streamEnd] true false (4 * ts.length + 4)
  match ts with
  | .streamEnd :: _ => some (missing, ts)
  | .documentStart :: ts => content ts
  | .documentEnd :: _ => none
  | ts => content ts

/-- No document follows. -/
def isEnd (rest : List Token) : Bool := rest.dropWhile (· == .documentEnd) = [.streamEnd]

/-- The document that a text is. -/
def parse? (s : String) : Option Document :=
  match read? s with
  | some (d, rest) => if isEnd rest then some d else none
  | none => none

end Yaml
end Document
end TripleSql
