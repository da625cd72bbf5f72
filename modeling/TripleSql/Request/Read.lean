/-
# Reading requests

The fields of a request are looked at in the order in which they stand. Targets and ordering are read on the spot; the
elements are read after all fields were seen, list by list, item by item, left to right. In a list of nodes each node is
read before it is noticed that one is missing or left over. So of several faults a text that is no node is named only if
nothing is wrong with the document as such, with the targets, with the ordering, or with what stands before it.

A record inside `required` and `optional` may also be written as the list of its fields; in JSON this holds for the
ordering too. Its fields may be called by their position there, and a key that is neither a text nor a position is refused.

Source: specification, 12; `QueryFile` with `from_json_str` and `from_yaml_str`, and the forms of its parts.
-/

import TripleSql.Document.Dialect
import TripleSql.Document.Json
import TripleSql.Document.Yaml.Content
import TripleSql.Request.Basic

namespace TripleSql

open Pattern

/-- What is wrong with the document of a request: its form, or a text that should be a node. -/
inductive Misread where
  | form
  | node (error : NodeError)
deriving DecidableEq, Repr

/-- A value, or the wrong form. -/
def Misread.orForm {α : Type} : Option α → Except Misread α
  | some a => .ok a
  | none => .error .form

namespace Pattern

/-- The node of a text. -/
def readNode (d : Document) : Except Misread Node := do
  let s ← Misread.orForm d.text?
  (Node.parse s).mapError .node

/-- The triple pattern of a list of three nodes. -/
def readTriple : Document → Except Misread Triple
  | .list (a :: as) => do
    let s ← readNode a
    match as with
    | [] => .error .form
    | b :: bs => do
      let p ← readNode b
      match bs with
      | [] => .error .form
      | c :: cs => do
        let o ← readNode c
        if cs.isEmpty then .ok ⟨s, p, o⟩ else .error .form
  | _ => .error .form

/-- The filter of a list of a node, an operator and a node. -/
def readFilter : Document → Except Misread Filter
  | .list (a :: as) => do
    let l ← readNode a
    match as with
    | [] => .error .form
    | b :: bs => do
      let op ← Misread.orForm b.text?
      match bs with
      | [] => .error .form
      | c :: cs => do
        let r ← readNode c
        if cs.isEmpty then .ok ⟨l, op, r⟩ else .error .form
  | _ => .error .form

/-- The items of a list, each read by a reader. -/
def readList {α : Type} (read : Document → Except Misread α) : Document → Except Misread (List α)
  | .list items => items.mapM read
  | _ => .error .form

/-- The position of the field that a key calls, if there is such a field. -/
def fieldPosition (names : List String) : Document → Except Misread (Option Nat)
  | .scalar s .text => .ok (names.idxOf? s)
  | .scalar _ (.index n) => .ok (some n)
  | _ => .error .form

/-- The graph pattern of the entries of a table, with the fields that were read before. -/
def readPatternEntries (triples : Option (List Triple)) (filters : Option (List Filter)) :
    List (Document × Document) → Except Misread GraphPattern
  | [] =>
    match triples with
    | some ts => .ok ⟨ts, filters.getD []⟩
    | none => .error .form
  | (k, v) :: es => do
    match ← fieldPosition ["triples", "filters"] k with
    | some 0 =>
      if triples.isSome then .error .form
      else do
        let ts ← readList readTriple v
        readPatternEntries (some ts) filters es
    | some 1 =>
      if filters.isSome then .error .form
      else do
        let fs ← readList readFilter v
        readPatternEntries triples (some fs) es
    | _ => readPatternEntries triples filters es

/-- The graph pattern of a record. -/
def readPattern : Document → Except Misread GraphPattern
  | .table entries => readPatternEntries none none entries
  | .list (t :: rest) => do
    let ts ← readList readTriple t
    match rest with
    | [] => .ok ⟨ts, []⟩
    | f :: rest => do
      let fs ← readList readFilter f
      if rest.isEmpty then .ok ⟨ts, fs⟩ else .error .form
  | _ => .error .form

mutual

/-- The elements of a list. -/
def readElements : Document → Except Misread (List Element)
  | .list items => readEach items
  | _ => .error .form

/-- The elements of some items. -/
def readEach : List Document → Except Misread (List Element)
  | [] => .ok []
  | d :: ds => do
    let e ← readElement d
    let es ← readEach ds
    return e :: es

/-- The element of a table of one entry. -/
def readElement : Document → Except Misread Element
  | .table [(k, v)] => do
    match ← fieldPosition ["graph_pattern", "graph_query"] k with
    | some 0 => do return .pattern (← readPattern v)
    | some 1 => do
      let q ← readQuery v
      return .query q.required q.optional
    | _ => .error .form
  | _ => .error .form

/-- The query of a record. -/
def readQuery : Document → Except Misread Query
  | .table entries => readQueryEntries none none entries
  | .list [] => .ok {}
  | .list [r] => do return { required := ← readElements r }
  | .list (r :: o :: rest) => do
    let required ← readElements r
    let optional ← readElements o
    if rest.isEmpty then .ok { required, optional } else .error .form
  | _ => .error .form

/-- The query of the entries of a table, with the fields that were read before. -/
def readQueryEntries (required optional : Option (List Element)) :
    List (Document × Document) → Except Misread Query
  | [] => .ok ⟨required.getD [], optional.getD []⟩
  | (k, v) :: es => do
    match ← fieldPosition ["required", "optional"] k with
    | some 0 =>
      if required.isSome then .error .form
      else do
        let r ← readElements v
        readQueryEntries (some r) optional es
    | some 1 =>
      if optional.isSome then .error .form
      else do
        let o ← readElements v
        readQueryEntries required (some o) es
    | _ => readQueryEntries required optional es

end

end Pattern

namespace Request

/-- The ordering of a record. -/
def readOrderRecord (dialect : Dialect) (d : Document) : Option OrderRequest := do
  let fields ← dialect.record? ["variable", "descending"] 1 d
  return {
    variableName := ← Dialect.field? "variable" none dialect.text? fields
    descending := ← Dialect.field? "descending" (some false) Dialect.bool? fields }

/-- The ordering of a record, or nothing. -/
def readOrder (dialect : Dialect) : Document → Option (Option OrderRequest)
  | .scalar _ .null => some none
  | d => (readOrderRecord dialect d).map some

/-- Targets and ordering as far as they were read, and the fields that are read later. -/
structure Fields where
  targets : Option (List String) := none
  orderBy : Option (Option OrderRequest) := none
  later : List (Document × Document) := []

/-- One more field of a request. -/
def Fields.add? (dialect : Dialect) (f : Fields) (name : String) (d : Document) : Option Fields :=
  if name = "targets" then
    if f.targets.isSome then none
    else (dialect.texts? d).map fun ts => { f with targets := some ts }
  else if name = "order_by" then
    if f.orderBy.isSome then none
    else (readOrder dialect d).map fun o => { f with orderBy := some o }
  else if d.isWithin (dialect.depth - 1) then
    some { f with later := f.later ++ [(.ofText name, d)] }
  else none

/-- The request that a document holds. -/
def ofDocument (dialect : Dialect) (d : Document) : Except Misread Request := do
  let entries ← Misread.orForm ((dialect.entries? d).bind dialect.keyed?)
  let fields ← Misread.orForm (entries.foldlM (fun (f : Fields) e => f.add? dialect e.1 e.2) {})
  let query ← readQueryEntries none none fields.later
  return ⟨fields.targets.getD [], fields.orderBy.getD none, query⟩

/-- The request of a document that stands at the start of a text; `isEnd` tells whether nothing follows it. -/
def ofStart (dialect : Dialect) (start : Option (Document × Bool)) : Except Misread Request := do
  let (d, isEnd) ← Misread.orForm start
  let r ← ofDocument dialect d
  if isEnd then .ok r else .error .form

/-- The request that a text of JSON holds. -/
def ofJson (s : String) : Except Misread Request :=
  ofStart .json ((Document.Json.read? s).map fun r => (r.1, Document.Json.isEnd r.2))

/-- The request that a text of YAML holds. -/
def ofYaml (s : String) : Except Misread Request :=
  ofStart .yaml ((Document.Yaml.read? s).map fun r => (r.1, Document.Yaml.isEnd r.2))

end Request
end TripleSql
