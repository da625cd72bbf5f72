/-
# A request that was read can be written and read again

A request may be read from JSON or from YAML, and each of its records in more than one form. It is written in one:

| read | written |
| --- | --- |
| a record, or the list of its fields in order | a record |
| a field called by its name or by its position | its name |
| a field that is missing | an empty list, `false` or `null` |
| a field that no request has | nothing |
| a node with blanks around it | its text |

The text that was read is therefore not the one that is written, but the request is the same: every node that was read
is well formed, however deep it stands (`allWellFormed_of_readElement`), and a request of well-formed nodes is read back
from its document (`Request.ofDocument_toDocument`). A condition on the depth stays. A nested query without any field is
written with two empty lists, and YAML may be nested deeper than JSON, so the document of a request may be nested too
deep although the text that was read was not (`Request.ofJson_toDocument_of_read`).
-/

import TripleSql.Proofs.NodeTexts
import TripleSql.Proofs.PrintedDocuments
import TripleSql.Proofs.Steps
import TripleSql.Request.Read

namespace TripleSql

open Compile (bind_eq_ok_except mapM_eq_ok_except)

namespace Pattern

/-- The nodes of a triple pattern. -/
def Triple.nodes (t : Triple) : List Node := [t.subject, t.predicate, t.object]

/-- The nodes of a filter. -/
def Filter.nodes (f : Filter) : List Node := [f.left, f.right]

/-- The nodes of a graph pattern. -/
def GraphPattern.nodes (p : GraphPattern) : List Node :=
  p.triples.flatMap Triple.nodes ++ p.filters.flatMap Filter.nodes

mutual

/-- The nodes of an element. -/
def Element.nodes : Element → List Node
  | .pattern p => p.nodes
  | .query required optional => nodesOf required ++ nodesOf optional

/-- The nodes of elements. -/
def nodesOf : List Element → List Node
  | [] => []
  | e :: es => e.nodes ++ nodesOf es

end

/-- The nodes of a query. -/
def Query.nodes (q : Query) : List Node := nodesOf q.required ++ nodesOf q.optional

/-- All nodes are well formed, so all of them can be written and read. -/
def AllWellFormed (ns : List Node) : Prop := ∀ n ∈ ns, n.IsWellFormed

theorem allWellFormed_nil : AllWellFormed [] := fun _ hn => absurd hn List.not_mem_nil

/-- Nodes of two parts are well formed if those of each part are. -/
theorem allWellFormed_append {ms ns : List Node} : AllWellFormed (ms ++ ns) ↔ AllWellFormed ms ∧ AllWellFormed ns :=
  List.forall_mem_append

/-- Nodes of some parts are well formed if those of each part are. -/
theorem allWellFormed_flatMap {α : Type} {f : α → List Node} {as : List α} :
    AllWellFormed (as.flatMap f) ↔ ∀ a ∈ as, AllWellFormed (f a) := by
  simp only [AllWellFormed, List.mem_flatMap]
  exact ⟨fun h a ha n hn => h n ⟨a, ha, hn⟩, fun h n ⟨a, ha, hn⟩ => h a ha n hn⟩

/-- A reader that only knows one kind of failure has a value exactly if it has one. -/
theorem orForm_eq_ok {α : Type} {o : Option α} {a : α} : Misread.orForm o = .ok a ↔ o = some a := by
  cases o <;> simp [Misread.orForm]

/-- Another error does not change a value. -/
theorem mapError_eq_ok {ε ε' α : Type} {f : ε → ε'} {x : Except ε α} {a : α} : x.mapError f = .ok a ↔ x = .ok a := by
  cases x <;> simp [Except.mapError]

/-- A node is read from its text. -/
theorem readNode_eq_ok {d : Document} {n : Node} :
    readNode d = .ok n ↔ ∃ s, d.text? = some s ∧ Node.parse s = .ok n := by
  rw [readNode, bind_eq_ok_except]
  simp only [orForm_eq_ok, mapError_eq_ok]

/-- A triple pattern is read from the list of its nodes. -/
theorem readTriple_eq_ok {d : Document} {t : Triple} : readTriple d = .ok t ↔
    ∃ a b c, d = .list [a, b, c] ∧ readNode a = .ok t.subject ∧ readNode b = .ok t.predicate ∧
      readNode c = .ok t.object := by
  constructor
  · intro h
    unfold readTriple at h
    split at h
    · next a as =>
      obtain ⟨s, hs, h⟩ := bind_eq_ok_except.1 h
      cases as with
      | nil => cases h
      | cons b bs =>
        obtain ⟨p, hp, h⟩ := bind_eq_ok_except.1 h
        cases bs with
        | nil => cases h
        | cons c cs =>
          obtain ⟨o, ho, h⟩ := bind_eq_ok_except.1 h
          cases cs with
          | nil => cases h; exact ⟨a, b, c, rfl, hs, hp, ho⟩
          | cons d ds => cases h
    · cases h
  · rintro ⟨a, b, c, rfl, hs, hp, ho⟩
    simp only [readTriple, hs, hp, ho]
    rfl

/-- A filter is read from the list of its nodes around its operator. -/
theorem readFilter_eq_ok {d : Document} {f : Filter} : readFilter d = .ok f ↔
    ∃ a b c, d = .list [a, b, c] ∧ readNode a = .ok f.left ∧ b.text? = some f.operator ∧ readNode c = .ok f.right := by
  constructor
  · intro h
    unfold readFilter at h
    split at h
    · next a as =>
      obtain ⟨l, hl, h⟩ := bind_eq_ok_except.1 h
      cases as with
      | nil => cases h
      | cons b bs =>
        obtain ⟨op, hop, h⟩ := bind_eq_ok_except.1 h
        cases bs with
        | nil => cases h
        | cons c cs =>
          obtain ⟨r, hr, h⟩ := bind_eq_ok_except.1 h
          cases cs with
          | nil => cases h; exact ⟨a, b, c, rfl, hl, orForm_eq_ok.1 hop, hr⟩
          | cons d ds => cases h
    · cases h
  · rintro ⟨a, b, c, rfl, hl, hop, hr⟩
    simp only [readFilter, hl, hop, hr]
    rfl

section Written

/-- A well-formed node is read from its own text. -/
theorem readNode_ofText {n : Node} (h : n.IsWellFormed) : readNode (.ofText n.text) = .ok n :=
  readNode_eq_ok.2 ⟨n.text, rfl, h.parse_text⟩

/-- A triple pattern is read from the list of its three nodes. -/
theorem readTriple_toDocument {t : Triple} (h : AllWellFormed t.nodes) : readTriple t.toDocument = .ok t :=
  readTriple_eq_ok.2 ⟨_, _, _, rfl, readNode_ofText (h _ (by simp [Triple.nodes])),
    readNode_ofText (h _ (by simp [Triple.nodes])), readNode_ofText (h _ (by simp [Triple.nodes]))⟩

/-- A filter is read from its two nodes and its operator, which may be any text. -/
theorem readFilter_toDocument {f : Filter} (h : AllWellFormed f.nodes) : readFilter f.toDocument = .ok f :=
  readFilter_eq_ok.2 ⟨_, _, _, rfl, readNode_ofText (h _ (by simp [Filter.nodes])), rfl,
    readNode_ofText (h _ (by simp [Filter.nodes]))⟩

/-- Items that are read back one by one are read back as a list. -/
theorem readList_map {α : Type} {write : α → Document} {read : Document → Except Misread α} {as : List α}
    (h : ∀ a ∈ as, read (write a) = .ok a) : readList read (.list (as.map write)) = .ok as := by
  rw [readList, mapM_eq_ok_except]
  induction as with
  | nil => exact .nil
  | cons a as ih => exact .cons (h a (List.mem_cons_self ..)) (ih fun b hb => h b (List.mem_cons_of_mem _ hb))

/-- A graph pattern is read from a record that has both of its fields. -/
theorem readPattern_toDocument {p : GraphPattern} (h : AllWellFormed p.nodes) : readPattern p.toDocument = .ok p := by
  obtain ⟨htriples, hfilters⟩ := allWellFormed_append.1 h
  have hts := readList_map fun t ht => readTriple_toDocument (allWellFormed_flatMap.1 htriples t ht)
  have hfs := readList_map fun f hf => readFilter_toDocument (allWellFormed_flatMap.1 hfilters f hf)
  have htriplesKey : fieldPosition ["triples", "filters"] (.ofText "triples") = .ok (some 0) := rfl
  have hfiltersKey : fieldPosition ["triples", "filters"] (.ofText "filters") = .ok (some 1) := rfl
  simp only [GraphPattern.toDocument, Document.record, List.map_cons, List.map_nil, readPattern, readPatternEntries,
    htriplesKey, hfiltersKey, hts, hfs]
  rfl

/-- A query is read back if its elements are. -/
theorem readQueryEntries_elementDocuments {required optional : List Element}
    (hrequired : readEach (elementDocuments required) = .ok required)
    (hoptional : readEach (elementDocuments optional) = .ok optional) :
    readQueryEntries none none [(.ofText "required", .list (elementDocuments required)),
      (.ofText "optional", .list (elementDocuments optional))] = .ok ⟨required, optional⟩ := by
  have hfirst : fieldPosition ["required", "optional"] (.ofText "required") = .ok (some 0) := rfl
  have hsecond : fieldPosition ["required", "optional"] (.ofText "optional") = .ok (some 1) := rfl
  simp only [readQueryEntries, readElements, hfirst, hsecond, hrequired, hoptional]
  rfl

mutual

/-- **An element is read back from its document,** however deep its queries are nested. -/
theorem readElement_toDocument : (e : Element) → AllWellFormed e.nodes → readElement e.toDocument = .ok e
  | .pattern p, h => by
    rw [Element.nodes] at h
    change (do return Element.pattern (← readPattern p.toDocument)) = _
    rw [readPattern_toDocument h]
    rfl
  | .query required optional, h => by
    rw [Element.nodes, allWellFormed_append] at h
    have hrequired := readEach_elementDocuments required h.1
    have hoptional := readEach_elementDocuments optional h.2
    have hkey : fieldPosition ["graph_pattern", "graph_query"] (.ofText "graph_query") = .ok (some 1) := rfl
    simp only [Element.toDocument, Document.record, List.map_cons, List.map_nil, readElement, hkey, readQuery,
      readQueryEntries_elementDocuments hrequired hoptional]
    rfl

/-- Elements are read one after the other, nested ones included. -/
theorem readEach_elementDocuments : (es : List Element) → AllWellFormed (nodesOf es) →
    readEach (elementDocuments es) = .ok es
  | [], _ => rfl
  | e :: es, h => by
    rw [nodesOf, allWellFormed_append] at h
    rw [elementDocuments, readEach, readElement_toDocument e h.1, readEach_elementDocuments es h.2]
    rfl

end

end Written

section Composed

open Document (Composed)

/-- The document of a graph pattern has no numbers. -/
theorem GraphPattern.composed_toDocument (p : GraphPattern) : p.toDocument.Composed := by
  have htriples := Composed.map
    (fun t : Triple => Composed.ofTexts [t.subject.text, t.predicate.text, t.object.text]) p.triples
  have hfilters := Composed.map
    (fun f : Filter => Composed.ofTexts [f.left.text, f.operator, f.right.text]) p.filters
  refine .record fun f hf => ?_
  simp only [List.mem_cons, List.not_mem_nil, or_false] at hf
  rcases hf with rfl | rfl
  · exact htriples
  · exact hfilters

mutual

/-- The document of an element has no numbers, however deep it is nested. -/
theorem Element.composed_toDocument : (e : Element) → e.toDocument.Composed
  | .pattern p => .record (by simp [p.composed_toDocument])
  | .query required optional => by
    have hquery : (Document.record [("required", .list (elementDocuments required)),
        ("optional", .list (elementDocuments optional))]).Composed :=
      .record (by
        simp [Composed.list (composed_elementDocuments required), Composed.list (composed_elementDocuments optional)])
    exact .record (by simp [hquery])

/-- None of the documents of some elements has a number. -/
theorem composed_elementDocuments : (es : List Element) → ∀ d ∈ elementDocuments es, d.Composed
  | [] => by simp [elementDocuments]
  | e :: es => by
    rw [elementDocuments]
    exact List.forall_mem_cons.2 ⟨e.composed_toDocument, composed_elementDocuments es⟩

end

end Composed

section Read

/-- A node that was read is well formed. -/
theorem isWellFormed_of_readNode {d : Document} {n : Node} (h : readNode d = .ok n) : n.IsWellFormed := by
  obtain ⟨s, -, hs⟩ := readNode_eq_ok.1 h
  exact Node.exists_parse_eq_ok.1 ⟨s, hs⟩

/-- The three nodes of a triple pattern that was read are well formed. -/
theorem allWellFormed_of_readTriple {d : Document} {t : Triple} (h : readTriple d = .ok t) : AllWellFormed t.nodes := by
  obtain ⟨a, b, c, -, hs, hp, ho⟩ := readTriple_eq_ok.1 h
  simp [AllWellFormed, Triple.nodes, isWellFormed_of_readNode hs, isWellFormed_of_readNode hp,
    isWellFormed_of_readNode ho]

/-- The two nodes of a filter that was read are well formed. -/
theorem allWellFormed_of_readFilter {d : Document} {f : Filter} (h : readFilter d = .ok f) : AllWellFormed f.nodes := by
  obtain ⟨a, b, c, -, hl, -, hr⟩ := readFilter_eq_ok.1 h
  simp [AllWellFormed, Filter.nodes, isWellFormed_of_readNode hl, isWellFormed_of_readNode hr]

/-- What is read of each item of a list is read of the list. -/
theorem allWellFormed_of_readList {α : Type} {nodes : α → List Node} {read : Document → Except Misread α}
    (hread : ∀ {d a}, read d = .ok a → AllWellFormed (nodes a)) {d : Document} {as : List α}
    (h : readList read d = .ok as) : AllWellFormed (as.flatMap nodes) := by
  unfold readList at h
  split at h
  · rw [allWellFormed_flatMap]
    intro a ha
    obtain ⟨d, -, hd⟩ := exists_left_of_forall₂ (mapM_eq_ok_except.1 h) ha
    exact hread hd
  · cases h

/-- The entries of a graph pattern are read in turn; what was read before is well formed by assumption. -/
theorem allWellFormed_of_readPatternEntries {es : List (Document × Document)} {triples : Option (List Triple)}
    {filters : Option (List Filter)} {p : GraphPattern}
    (h : readPatternEntries triples filters es = .ok p)
    (htriples : AllWellFormed ((triples.getD []).flatMap Triple.nodes))
    (hfilters : AllWellFormed ((filters.getD []).flatMap Filter.nodes)) : AllWellFormed p.nodes := by
  -- What was read of the fields before is carried along; its nodes stay well formed.
  induction es generalizing triples filters with
  | nil =>
    cases triples with
    | none => cases h
    | some ts =>
      cases h
      exact allWellFormed_append.2 ⟨htriples, hfilters⟩
  | cons e es ih =>
    rw [readPatternEntries] at h
    obtain ⟨position, -, h⟩ := bind_eq_ok_except.1 h
    split at h
    · split at h
      · cases h
      · obtain ⟨ts, hts, h⟩ := bind_eq_ok_except.1 h
        exact ih h (allWellFormed_of_readList allWellFormed_of_readTriple hts) hfilters
    · split at h
      · cases h
      · obtain ⟨fs, hfs, h⟩ := bind_eq_ok_except.1 h
        exact ih h htriples (allWellFormed_of_readList allWellFormed_of_readFilter hfs)
    · exact ih h htriples hfilters

/-- **The nodes of a graph pattern that was read are well formed,** whether it was a record or a list of fields. -/
theorem allWellFormed_of_readPattern {d : Document} {p : GraphPattern} (h : readPattern d = .ok p) :
    AllWellFormed p.nodes := by
  unfold readPattern at h
  split at h
  · exact allWellFormed_of_readPatternEntries h allWellFormed_nil allWellFormed_nil
  · next d rest =>
    obtain ⟨ts, hts, h⟩ := bind_eq_ok_except.1 h
    have htriples := allWellFormed_of_readList allWellFormed_of_readTriple hts
    cases rest with
    | nil =>
      cases h
      exact allWellFormed_append.2 ⟨htriples, allWellFormed_nil⟩
    | cons f rest =>
      obtain ⟨fs, hfs, h⟩ := bind_eq_ok_except.1 h
      have hfilters := allWellFormed_of_readList allWellFormed_of_readFilter hfs
      cases rest with
      | nil =>
        cases h
        exact allWellFormed_append.2 ⟨htriples, hfilters⟩
      | cons r rest => cases h
  · cases h

-- The recursion is that of the reader, from an element to the query that it holds and through the fields of the query to
-- elements again.
mutual

/-- The nodes of elements are well formed, by induction on how deep the elements are nested. -/
theorem allWellFormed_of_readElements : (d : Document) → {es : List Element} → readElements d = .ok es →
    AllWellFormed (nodesOf es)
  | .list items, _, h => allWellFormed_of_readEach items h
  | .scalar .., _, h => nomatch h
  | .table _, _, h => nomatch h

/-- The nodes of elements that are read one after the other are well formed. -/
theorem allWellFormed_of_readEach : (ds : List Document) → {es : List Element} → readEach ds = .ok es →
    AllWellFormed (nodesOf es)
  | [], _, h => by
    cases h
    exact allWellFormed_nil
  | d :: ds, _, h => by
    rw [readEach] at h
    obtain ⟨e, he, h⟩ := bind_eq_ok_except.1 h
    obtain ⟨es, hes, h⟩ := bind_eq_ok_except.1 h
    cases h
    rw [nodesOf, allWellFormed_append]
    exact ⟨allWellFormed_of_readElement d he, allWellFormed_of_readEach ds hes⟩

/-- **Every node of an element that was read is well formed,** however deep it stands. -/
theorem allWellFormed_of_readElement : (d : Document) → {e : Element} → readElement d = .ok e → AllWellFormed e.nodes
  | .table [(k, v)], _, h => by
    rw [readElement] at h
    obtain ⟨position, -, h⟩ := bind_eq_ok_except.1 h
    split at h
    · obtain ⟨p, hp, h⟩ := bind_eq_ok_except.1 h
      cases h
      exact allWellFormed_of_readPattern hp
    · obtain ⟨q, hq, h⟩ := bind_eq_ok_except.1 h
      cases h
      exact allWellFormed_of_readQuery v hq
    · cases h
  | .table [], _, h => nomatch h
  | .table (_ :: _ :: _), _, h => nomatch h
  | .scalar .., _, h => nomatch h
  | .list _, _, h => nomatch h

/-- The nodes of a nested query that was read are well formed. -/
theorem allWellFormed_of_readQuery : (d : Document) → {q : Query} → readQuery d = .ok q → AllWellFormed q.nodes
  | .table entries, _, h => allWellFormed_of_readQueryEntries entries h allWellFormed_nil allWellFormed_nil
  | .list [], _, h => by
    cases h
    exact allWellFormed_nil
  | .list [r], _, h => by
    rw [readQuery] at h
    obtain ⟨required, hrequired, h⟩ := bind_eq_ok_except.1 h
    cases h
    exact allWellFormed_append.2 ⟨allWellFormed_of_readElements r hrequired, allWellFormed_nil⟩
  | .list (r :: o :: rest), _, h => by
    rw [readQuery] at h
    obtain ⟨required, hrequired, h⟩ := bind_eq_ok_except.1 h
    obtain ⟨optional, hoptional, h⟩ := bind_eq_ok_except.1 h
    split at h
    · cases h
      exact allWellFormed_append.2
        ⟨allWellFormed_of_readElements r hrequired, allWellFormed_of_readElements o hoptional⟩
    · cases h
  | .scalar .., _, h => nomatch h

/-- The entries of a query are read in turn; what was read before is well formed by assumption. -/
theorem allWellFormed_of_readQueryEntries : (es : List (Document × Document)) →
    {required optional : Option (List Element)} →
    {q : Query} → readQueryEntries required optional es = .ok q → AllWellFormed (nodesOf (required.getD [])) →
    AllWellFormed (nodesOf (optional.getD [])) → AllWellFormed q.nodes
  | [], _, _, _, h, hrequired, hoptional => by
    cases h
    exact allWellFormed_append.2 ⟨hrequired, hoptional⟩
  | (k, v) :: es, _, _, _, h, hrequired, hoptional => by
    rw [readQueryEntries] at h
    obtain ⟨position, -, h⟩ := bind_eq_ok_except.1 h
    split at h
    · split at h
      · cases h
      · obtain ⟨r, hr, h⟩ := bind_eq_ok_except.1 h
        exact allWellFormed_of_readQueryEntries es h (allWellFormed_of_readElements v hr) hoptional
    · split at h
      · cases h
      · obtain ⟨o, ho, h⟩ := bind_eq_ok_except.1 h
        exact allWellFormed_of_readQueryEntries es h hrequired (allWellFormed_of_readElements v ho)
    · exact allWellFormed_of_readQueryEntries es h hrequired hoptional

end

end Read

end Pattern
namespace Request

open Pattern

variable {r : Request}

/-- A list of texts is read as these texts. -/
theorem texts?_ofTexts (ss : List String) : Dialect.json.texts? (.ofTexts ss) = some ss := by
  have htext : ∀ s, Dialect.json.text? (.ofText s) = some s := fun _ => rfl
  exact mapM_map_eq_some htext ss

/-- An ordering is read from its document, also where there is none. -/
theorem readOrder_orderDocument (o : Option OrderRequest) : readOrder .json (orderDocument o) = some o := by
  cases o with
  | none => rfl
  | some o =>
    have hfields : Dialect.json.fields? ["variable", "descending"] (orderDocument (some o)) =
        some [("variable", .ofText o.variableName), ("descending", .ofBool o.descending)] :=
      Dialect.fields?_record .json (by simp) (by simp)
    have hrecord : readOrderRecord .json (orderDocument (some o)) = some o := by
      change (do let fields ← Dialect.json.fields? ["variable", "descending"] (orderDocument (some o)); _) = _
      rw [hfields]
      rfl
    change (readOrderRecord .json (orderDocument (some o))).map some = _
    rw [hrecord, Option.map_some]

/-- Texts are not nested. -/
theorem areWithin_ofTexts (limit : Nat) (ss : List String) : Document.areWithin limit (ss.map .ofText) = true := by
  induction ss with
  | nil => rfl
  | cons s ss ih => rw [List.map_cons, Document.areWithin, ih]; rfl

/-- What is nested deep in the document of a request is nested in its elements. -/
theorem isWithin_toDocument (r : Request) : r.toDocument.isWithin Dialect.json.depth =
    ((Document.list (elementDocuments r.query.required)).isWithin (Dialect.json.depth - 1) &&
      (Document.list (elementDocuments r.query.optional)).isWithin (Dialect.json.depth - 1)) := by
  have htargets : (Document.ofTexts r.targets).isWithin (Dialect.json.depth - 1) = true := by
    simp [Document.ofTexts, Document.isWithin, areWithin_ofTexts, Dialect.depth]
  have horder : (orderDocument r.orderBy).isWithin (Dialect.json.depth - 1) = true := by
    cases r.orderBy with
    | none => rfl
    | some o => cases o with | mk v b => cases b <;> rfl
  have hkey : ∀ s, (Document.ofText s).isWithin (Dialect.json.depth - 1) = true := fun _ => rfl
  have hdepth : decide (0 < Dialect.json.depth) = true := rfl
  simp [toDocument, Document.record, Document.isWithin, Document.entriesAreWithin, htargets, horder, hkey, hdepth]

/-- The fields of the document of a request, as far as they are read on the spot. -/
theorem foldlM_add?_toDocument (r : Request) :
    List.foldlM (fun (f : Fields) e => f.add? .json e.1 e.2) {} [("targets", .ofTexts r.targets),
      ("order_by", orderDocument r.orderBy), ("required", .list (elementDocuments r.query.required)),
      ("optional", .list (elementDocuments r.query.optional))] =
    if r.toDocument.isWithin Dialect.json.depth then
      some ⟨some r.targets, some r.orderBy, [(.ofText "required", .list (elementDocuments r.query.required)),
        (.ofText "optional", .list (elementDocuments r.query.optional))]⟩
    else none := by
  rw [isWithin_toDocument]
  cases hrequired : (Document.list (elementDocuments r.query.required)).isWithin (Dialect.json.depth - 1) with
  | false => simp [Fields.add?, texts?_ofTexts, readOrder_orderDocument, hrequired]
  | true =>
    cases hoptional : (Document.list (elementDocuments r.query.optional)).isWithin (Dialect.json.depth - 1) <;>
      simp [Fields.add?, texts?_ofTexts, readOrder_orderDocument, hrequired, hoptional]

/-- **A request is read back from its document exactly if the document is not nested too deep,** and refused for its
form otherwise. -/
theorem ofDocument_toDocument (h : AllWellFormed r.query.nodes) :
    ofDocument .json r.toDocument = if r.toDocument.isWithin Dialect.json.depth then .ok r else .error .form := by
  obtain ⟨hrequired, hoptional⟩ := allWellFormed_append.1 h
  have hkeyed : (Dialect.json.entries? r.toDocument).bind Dialect.json.keyed? = some [
      ("targets", .ofTexts r.targets), ("order_by", orderDocument r.orderBy),
      ("required", .list (elementDocuments r.query.required)),
      ("optional", .list (elementDocuments r.query.optional))] := rfl
  have hquery := readQueryEntries_elementDocuments (readEach_elementDocuments _ hrequired)
    (readEach_elementDocuments _ hoptional)
  have hfields := foldlM_add?_toDocument r
  by_cases hwithin : r.toDocument.isWithin Dialect.json.depth
  · rw [if_pos hwithin] at hfields ⊢
    simp only [ofDocument, hkeyed, Misread.orForm, bind, Except.bind, hfields, hquery]
    rfl
  · rw [if_neg hwithin] at hfields ⊢
    simp only [ofDocument, hkeyed, Misread.orForm, bind, Except.bind, hfields]

/-- The nodes of a request that was read are well formed. -/
theorem allWellFormed_of_ofDocument {dialect : Dialect} {d : Document} (h : ofDocument dialect d = .ok r) :
    AllWellFormed r.query.nodes := by
  obtain ⟨entries, -, h⟩ := bind_eq_ok_except.1 h
  obtain ⟨fields, -, h⟩ := bind_eq_ok_except.1 h
  obtain ⟨query, hquery, h⟩ := bind_eq_ok_except.1 h
  cases h
  exact allWellFormed_of_readQueryEntries _ hquery allWellFormed_nil allWellFormed_nil

/-- Nothing may stand behind the document of a request; its nodes are those of the document. -/
theorem allWellFormed_of_ofStart {dialect : Dialect} {start : Option (Document × Bool)}
    (h : ofStart dialect start = .ok r) : AllWellFormed r.query.nodes := by
  obtain ⟨⟨d, isEnd⟩, -, h⟩ := bind_eq_ok_except.1 h
  obtain ⟨r', hr', h⟩ := bind_eq_ok_except.1 h
  cases isEnd with
  | true => cases h; exact allWellFormed_of_ofDocument hr'
  | false => cases h

/-- The document of a request has no numbers. -/
theorem composed_toDocument (r : Request) : r.toDocument.Composed := by
  have horder : (orderDocument r.orderBy).Composed := by
    cases r.orderBy with
    | none => exact .null
    | some o => exact .record (by simp [Document.Composed.text, Document.Composed.bool])
  exact .record (by
    simp [horder, Document.Composed.ofTexts, Document.Composed.list (composed_elementDocuments r.query.required),
      Document.Composed.list (composed_elementDocuments r.query.optional)])

/-- **A request of well-formed nodes is read from the text of its document,** unless that is nested too deep. -/
theorem ofJson_toDocument (h : AllWellFormed r.query.nodes) {json : String}
    (hjson : json ∈ [r.toDocument.print, r.toDocument.printLines 0]) :
    ofJson json = if r.toDocument.isWithin Dialect.json.depth then .ok r else .error .form := by
  rw [ofJson, r.composed_toDocument.read?_eq hjson]
  change (do let r ← ofDocument .json r.toDocument; Except.ok r) = _
  rw [ofDocument_toDocument h]
  split <;> rfl

/-- **A request that was read can be written and read again.** Whatever text of JSON or YAML it was read from, the text
of its document in JSON is read as the same request if the document is not nested too deep, and refused for its form if
it is. Its nodes stand that, since every node that a text is read as is well formed: a variable with a name that is not
empty and has no blank, or a constant that is not empty, has no blank at its ends and does not start with `?`; and its own
text is read as the node. -/
theorem ofJson_toDocument_of_read {text : String} (h : ofJson text = .ok r ∨ ofYaml text = .ok r) :
    (∀ json ∈ [r.toDocument.print, r.toDocument.printLines 0],
      ofJson json = if r.toDocument.isWithin Dialect.json.depth then .ok r else .error .form) ∧
    ∀ s n, Node.parse s = .ok n → n.IsWellFormed ∧ Node.parse n.text = .ok n := by
  have hnodes : AllWellFormed r.query.nodes := h.elim allWellFormed_of_ofStart allWellFormed_of_ofStart
  refine ⟨fun json hjson => ofJson_toDocument hnodes hjson, fun s n hn => ?_⟩
  have hwell := Node.exists_parse_eq_ok.1 ⟨s, hn⟩
  exact ⟨hwell, hwell.parse_text⟩

/-- A request in YAML with a query inside a query, a node with blanks around it, a variable that starts with `?`, a
target that is no name, and a field that no request has. -/
def nestedText : String :=
  "targets: [x, 5]\nrequired:\n- graph_query:\n    optional:\n    - graph_pattern:\n        triples:\n" ++
    "        - ['?x', ' <knows> ', '??y']\nnote: none\n"

/-- The request that `nestedText` is read as. -/
def nestedRequest : Request where
  targets := ["x", "5"]
  query :=
    { required :=
        [.query [] [.pattern { triples := [⟨.var "x", .const "<knows>", .var "?y"⟩] }]] }

/-- The request is read from its text in YAML, and again from its document in JSON. -/
theorem nestedText_read_again :
    ofYaml nestedText = .ok nestedRequest ∧ ofJson nestedRequest.toDocument.print = .ok nestedRequest ∧
      (Node.const "<knows>").IsWellFormed := by
  have hparse : Node.parse " <knows> " = .ok (.const "<knows>") := by decide +kernel
  have hwell : AllWellFormed nestedRequest.query.nodes := by
    change AllWellFormed [.var "x", .const "<knows>", .var "?y"]
    refine List.forall_mem_cons.2 ⟨Node.exists_parse_eq_ok.1 ⟨"?x", by decide +kernel⟩, ?_⟩
    refine List.forall_mem_cons.2 ⟨Node.exists_parse_eq_ok.1 ⟨_, hparse⟩, ?_⟩
    exact List.forall_mem_singleton.2 (Node.exists_parse_eq_ok.1 ⟨"??y", by decide +kernel⟩)
  have hwithin : nestedRequest.toDocument.isWithin Dialect.json.depth = true := by decide +kernel
  have hown : ofJson nestedRequest.toDocument.print = .ok nestedRequest := by
    rw [ofJson_toDocument hwell (List.mem_cons_self ..), if_pos hwithin]
  -- Requests are not compared by their fields: the one that is read and `nestedRequest` have one text.
  have hprint : (ofYaml nestedText).toOption.map (·.toDocument.print) = some nestedRequest.toDocument.print := by
    decide +kernel
  cases hr : ofYaml nestedText with
  | error e => rw [hr] at hprint; cases hprint
  | ok r =>
    rw [hr] at hprint
    obtain ⟨hagain, hnodes⟩ := ofJson_toDocument_of_read (.inr hr)
    have hjson := hagain _ (List.mem_cons_self ..)
    rw [show r.toDocument.print = _ from Option.some.inj hprint, hown] at hjson
    split at hjson
    · obtain rfl : nestedRequest = r := Except.ok.inj hjson
      exact ⟨rfl, hown, (hnodes _ _ hparse).1⟩
    · cases hjson

end Request
end TripleSql
