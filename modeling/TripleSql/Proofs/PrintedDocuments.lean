/-
# What is printed is read again

A document that is composed of texts, truth values, nothing, lists and records is printed on one line or with its parts on
lines of their own, and the text is read as the document again (`Composed.parse?_eq`).

A text is read as a document if the reader takes just the text off, whatever follows it (`Json.Reads`):

| printed | what shows where it ends | what shows that it is not something else |
| --- | --- | --- |
| text | the first quote without a backslash before it | the quote that it starts with |
| `null`, `true`, `false` | its length | its first letter |
| list | the bracket after an item without a comma | no item starts with a closing bracket |
| record | the brace after an entry without a comma | every entry starts with a quote |

A number would not do: a digit that follows it is taken for one of its own. The blanks of lines belong to the parts that
they stand before. Every list and every item takes a character, so the length of a text is bound enough to read it.
-/

import Mathlib.Data.List.DropRight
import TripleSql.Document.Dialect
import TripleSql.Document.Json
import TripleSql.Document.Print
import TripleSql.Proofs.Lists
import TripleSql.Proofs.Readable

namespace TripleSql

/-- The fields of a record are read back by a reader that knows them all. -/
theorem Dialect.fields?_record (dialect : Dialect) {known : List String} {fields : List (String × Document)}
    (hknown : ∀ f ∈ fields, f.1 ∈ known) (hnodup : (fields.map (·.1)).Nodup) :
    dialect.fields? known (.record fields) = some fields := by
  have hentries : dialect.entries? (.record fields) = some (fields.map fun f => (Document.ofText f.1, f.2)) := by
    cases dialect <;> rfl
  have hkeyed : dialect.keyed? (fields.map fun f => (Document.ofText f.1, f.2)) = some fields :=
    mapM_map_eq_some (fun f => by cases dialect <;> rfl) fields
  have hfilter : fields.filter (known.contains ·.1) = fields :=
    List.filter_eq_self.2 fun f hf => List.contains_iff_mem.2 (hknown f hf)
  rw [fields?, hentries, Option.bind_eq_bind, Option.bind_some, hkeyed, Option.bind_eq_bind, Option.bind_some, hfilter,
    if_pos hnodup]

namespace Document

/-- A document that is composed of texts, truth values, nothing, lists and records. -/
inductive Composed : Document → Prop where
  | text (s : String) : Composed (.ofText s)
  | null : Composed .null
  | bool (b : Bool) : Composed (.ofBool b)
  | list {items : List Document} (h : ∀ d ∈ items, Composed d) : Composed (.list items)
  | record {fields : List (String × Document)} (h : ∀ f ∈ fields, Composed f.2) : Composed (.record fields)

/-- A list is composed if what is written for each of its items is. -/
theorem Composed.map {α : Type} {write : α → Document} (h : ∀ a, (write a).Composed) (as : List α) :
    (Document.list (as.map write)).Composed := by
  refine .list fun d hd => ?_
  obtain ⟨a, -, rfl⟩ := List.mem_map.1 hd
  exact h a

theorem Composed.ofTexts (ss : List String) : (Document.ofTexts ss).Composed := Composed.map .text ss

namespace Json

/-- No character is half of a pair of surrogates. -/
theorem isHigh_or_isLow_toNat (c : Char) : (isHigh c.toNat || isLow c.toNat) = false := by
  have h : c.toNat < 0xD800 ∨ 0xDFFF < c.toNat ∧ c.toNat < 0x110000 := c.valid
  simp only [isHigh, isLow, Bool.or_eq_false_iff, Bool.and_eq_false_iff, decide_eq_false_iff_not]
  omega

/-- The codes of characters are read as these characters: none of them is half of a pair. -/
theorem characters?_map_toNat (cs : List Char) : characters? (cs.map Char.toNat) = some cs := by
  induction cs with
  | nil => rfl
  | cons c cs ih =>
    cases cs with
    | nil => simp [characters?, isHigh_or_isLow_toNat]
    | cons d cs =>
      have hc := isHigh_or_isLow_toNat c
      have hpair : (isHigh c.toNat && isLow d.toNat) = false := by
        rw [(Bool.or_eq_false_iff.1 hc).1, Bool.false_and]
      rw [List.map_cons, List.map_cons, characters?, hpair, hc, ← List.map_cons, ih]
      simp

/-- A digit of a code in hexadecimal is read as its value. -/
theorem hexValue?_hexDigit {n : Nat} (h : n < 16) : hexValue? (hexDigit n) = some n := by
  decide +revert

/-- **An escaped character is read as that character.** -/
theorem codes?_escaped (c : Char) (cs : List Char) :
    codes? (escaped c ++ cs) = (codes? cs).map fun r => (c.toNat :: r.1, r.2) := by
  unfold escaped
  split_ifs with hquote hslash hline hreturn htab hback hform hcontrol
  · subst hquote; rfl
  · subst hslash; rfl
  · subst hline; rfl
  · subst hreturn; rfl
  · subst htab; rfl
  · simp [codes?, escape?, hback]
  · simp [codes?, escape?, hform]
  · have hhigh := hexValue?_hexDigit (n := c.toNat / 16) (by omega)
    have hlow := hexValue?_hexDigit (n := c.toNat % 16) (by omega)
    have hzero : hexValue? '0' = some 0 := rfl
    have hhex : hex4? '0' '0' (hexDigit (c.toNat / 16)) (hexDigit (c.toNat % 16)) = some c.toNat := by
      simp only [hex4?, hhigh, hlow, hzero, Option.bind_eq_bind, Option.bind_some, Option.pure_def, Option.some.injEq]
      omega
    simp [codes?, hhex]
  · simp [codes?, hslash, hcontrol]

/-- **The inside of a quoted text is read up to the closing quote,** since a quote inside stands behind a backslash.
-/
theorem codes?_flatMap_escaped (cs rest : List Char) :
    codes? (cs.flatMap escaped ++ '"' :: rest) = some (cs.map Char.toNat, rest) := by
  induction cs with
  | nil => rfl
  | cons c cs ih =>
    rw [List.flatMap_cons, List.append_assoc, codes?_escaped, ih]
    rfl

/-- A printed text, from after its first quote on, is read as the text. -/
theorem text?_flatMap_escaped (s : String) (rest : List Char) :
    text? (s.toList.flatMap escaped ++ '"' :: rest) = some (some s, rest) := by
  simp [text?, codes?_flatMap_escaped, characters?_map_toNat]

/-- A quoted text, what is inside it and what follows. -/
theorem toList_quotedText_append (s : String) (rest : List Char) :
    (quotedText s).toList ++ rest = '"' :: (s.toList.flatMap escaped ++ '"' :: rest) := by
  simp [quotedText]

section Blanks

variable {w : List Char}

/-- Blanks before a text do not change what is left when blanks are skipped. -/
theorem skip_append (h : ∀ c ∈ w, isSpace c = true) (cs : List Char) : skip (w ++ cs) = skip cs :=
  List.dropWhile_append_of_pos h

theorem skip_skip (cs : List Char) : skip (skip cs) = skip cs := List.dropWhile_idempotent ..

/-- Nothing is skipped before a character that is no blank. -/
theorem skip_cons {c : Char} (h : isSpace c = false) (cs : List Char) : skip (c :: cs) = c :: cs := by
  simp [skip, h]

/-- Blanks before a value are no part of it. -/
theorem value?_skip (n : Nat) (cs : List Char) : value? n (skip cs) = value? n cs := by
  cases n with
  | zero => rfl
  | succ n => rw [value?, value?, skip_skip]

/-- Blanks before the first item are no part of it. -/
theorem items?_skip (n : Nat) (cs : List Char) : items? n (skip cs) = items? n cs := by
  cases n with
  | zero => rfl
  | succ n => rw [items?, items?, value?_skip]

/-- Blanks before the first entry are no part of it. -/
theorem entries?_skip (n : Nat) (cs : List Char) : entries? n (skip cs) = entries? n cs := by
  cases n with
  | zero => rfl
  | succ n => rw [entries?, entries?, skip_skip]

end Blanks

/-- The text is read as the document, whatever follows it. -/
def Reads (d : Document) (cs : List Char) : Prop :=
  ∀ n rest, cs.length ≤ n → value? n (cs ++ rest) = some (d, rest)

/-- The text is a key, a colon and a text that is read as the value, with blanks before the key. -/
def ReadsEntry (e : Document × Document) (cs : List Char) : Prop :=
  ∃ w s vs, (∀ c ∈ w, isSpace c = true) ∧ e.1 = .ofText s ∧ Reads e.2 vs ∧
    cs = w ++ ((quotedText s).toList ++ ':' :: vs)

variable {d : Document} {e : Document × Document} {w cs : List Char}

/-- The blanks at the start of a line belong to the document on it. -/
theorem Reads.blank_append (hw : ∀ c ∈ w, isSpace c = true) (h : Reads d cs) : Reads d (w ++ cs) := by
  intro n rest hn
  rw [List.length_append] at hn
  rw [List.append_assoc, ← value?_skip, skip_append hw, value?_skip]
  exact h n rest (by omega)

/-- The blanks at the start of a line belong to the entry on it. -/
theorem ReadsEntry.blank_append (hw : ∀ c ∈ w, isSpace c = true) (h : ReadsEntry e cs) : ReadsEntry e (w ++ cs) := by
  obtain ⟨v, s, vs, hv, hkey, hvalue, rfl⟩ := h
  refine ⟨w ++ v, s, vs, fun c hc => ?_, hkey, hvalue, (List.append_assoc ..).symm⟩
  rcases List.mem_append.1 hc with hc | hc
  · exact hw c hc
  · exact hv c hc

/-- A quoted text is read as a text, whatever follows it. -/
theorem reads_text (s : String) : Reads (.ofText s) (quotedText s).toList := by
  intro n rest hn
  cases n with
  | zero => simp [quotedText] at hn
  | succ n =>
    rw [toList_quotedText_append, value?, skip_cons rfl]
    simp [text?_flatMap_escaped, quotedScalar]

/-- The word `null` is read as nothing. -/
theorem reads_null : Reads .null "null".toList := by
  intro n rest hn
  cases n with
  | zero => simp at hn
  | succ n => rfl

/-- A word for a truth value is read as it. -/
theorem reads_bool (b : Bool) : Reads (.ofBool b) (if b then "true" else "false").toList := by
  intro n rest hn
  cases n with
  | zero => cases b <;> simp at hn
  | succ n => cases b <;> rfl

/-- No value starts with a closing bracket. -/
theorem value?_closing (n : Nat) (cs : List Char) : value? n (']' :: cs) = none := by
  cases n <;> rfl

/-- No entry starts with a closing brace. -/
theorem entries?_closing (n : Nat) (cs : List Char) : entries? n ('\x7d' :: cs) = none := by
  cases n <;> rfl

/-- Parts with commas between them, then blanks and a closing character. -/
def closedParts {α : Type} (write : α → List Char) (w : List Char) (closing : Char) : α → List α → List Char
  | a, [] => write a ++ (w ++ [closing])
  | a, b :: bs => write a ++ ',' :: closedParts write w closing b bs

/-- **Items with a closing bracket** are read as the items. -/
theorem items?_closedParts {write : Document → List Char} {d : Document} {ds : List Document}
    (hw : ∀ c ∈ w, isSpace c = true) (h : ∀ x ∈ d :: ds, Reads x (write x)) (n : Nat) (rest : List Char)
    (hn : (closedParts write w ']' d ds).length ≤ n) :
    items? n (closedParts write w ']' d ds ++ rest) = some (d :: ds, rest) := by
  have hd := h d (List.mem_cons_self ..)
  induction ds generalizing d n with
  | nil =>
    cases n with
    | zero => simp [closedParts] at hn
    | succ n =>
      have hitem := hd n (w ++ ']' :: rest) (by simp [closedParts] at hn; omega)
      rw [items?, closedParts, List.append_assoc, List.append_assoc, List.singleton_append, hitem]
      simp only [Option.bind_eq_bind, Option.bind_some, skip_append hw]
      rfl
  | cons x ds ih =>
    cases n with
    | zero => simp [closedParts] at hn
    | succ n =>
      have hx : ∀ y ∈ x :: ds, Reads y (write y) := fun y hy => h y (List.mem_cons_of_mem _ hy)
      have hitem := hd n (',' :: (closedParts write w ']' x ds ++ rest)) (by simp [closedParts] at hn; omega)
      have htail := ih hx n (by simp [closedParts] at hn; omega) (hx x (List.mem_cons_self ..))
      rw [items?, closedParts, List.append_assoc, List.cons_append, hitem]
      simp [skip_cons, isSpace, htail]

/-- An entry and what is read after it: more of them, or the closing brace. -/
def entriesAfter? (n : Nat) (e : Document × Document) : List Char → Option (List (Document × Document) × List Char)
  | ',' :: cs => (entries? n cs).map fun r => (e :: r.1, r.2)
  | '\x7d' :: cs => some ([e], cs)
  | _ => none

/-- An entry is read off the front; what is read after it depends on what follows. -/
theorem entries?_append {n : Nat} (h : ReadsEntry e cs) (hn : cs.length ≤ n + 1) (rest : List Char) :
    entries? (n + 1) (cs ++ rest) = entriesAfter? n e (skip rest) := by
  obtain ⟨v, s, vs, hv, hkey, hvalue, rfl⟩ := h
  obtain ⟨k, d⟩ := e
  subst hkey
  have hread := hvalue n rest (by simp [quotedText] at hn; omega)
  simp only [List.append_assoc, toList_quotedText_append, entries?, skip_append hv]
  simp [skip_cons, isSpace, text?_flatMap_escaped, hread, quotedScalar]
  rfl

/-- **Entries with a closing brace** are read as the entries. -/
theorem entries?_closedParts {write : Document × Document → List Char} {e : Document × Document}
    {es : List (Document × Document)} (hw : ∀ c ∈ w, isSpace c = true) (h : ∀ x ∈ e :: es, ReadsEntry x (write x))
    (n : Nat) (rest : List Char) (hn : (closedParts write w '\x7d' e es).length ≤ n) :
    entries? n (closedParts write w '\x7d' e es ++ rest) = some (e :: es, rest) := by
  have he := h e (List.mem_cons_self ..)
  induction es generalizing e n with
  | nil =>
    cases n with
    | zero => simp [closedParts] at hn
    | succ n =>
      rw [closedParts, List.append_assoc, List.append_assoc, entries?_append he (by simp [closedParts] at hn; omega),
        skip_append hw]
      rfl
  | cons x es ih =>
    cases n with
    | zero => simp [closedParts] at hn
    | succ n =>
      have hx : ∀ y ∈ x :: es, ReadsEntry y (write y) := fun y hy => h y (List.mem_cons_of_mem _ hy)
      have htail := ih hx n (by simp [closedParts] at hn; omega) (hx x (List.mem_cons_self ..))
      rw [closedParts, List.append_assoc, List.cons_append, entries?_append he (by simp [closedParts] at hn; omega)]
      simp [skip_cons, isSpace, entriesAfter?, htail]

/-- Two brackets are a list without items. -/
theorem reads_nil : Reads (.list []) ['[', ']'] := by
  intro n rest hn
  cases n with
  | zero => simp at hn
  | succ n => rfl

/-- Two braces are a record without fields. -/
theorem reads_empty : Reads (.table []) ['\x7b', '\x7d'] := by
  intro n rest hn
  cases n with
  | zero => simp at hn
  | succ n => rfl

/-- **Items between brackets** are read as their list. -/
theorem reads_list {write : Document → List Char} {d : Document} {ds : List Document}
    (hw : ∀ c ∈ w, isSpace c = true) (h : ∀ x ∈ d :: ds, Reads x (write x)) :
    Reads (.list (d :: ds)) ('[' :: closedParts write w ']' d ds) := by
  intro n rest hn
  cases n with
  | zero => simp at hn
  | succ n =>
    have hitems := items?_closedParts hw h n rest (by simp at hn; omega)
    rw [← items?_skip] at hitems
    have hfirst : ∀ cs, skip (closedParts write w ']' d ds ++ rest) ≠ ']' :: cs := by
      intro cs hcs
      cases n with
      | zero => cases hitems
      | succ n => rw [hcs, items?, value?_closing] at hitems; cases hitems
    rw [List.cons_append, value?, skip_cons rfl]
    -- The reader looks for an empty list first, which `hfirst` rules out.
    simp [hitems]

/-- **Entries between braces** are read as their table. -/
theorem reads_table {write : Document × Document → List Char} {e : Document × Document}
    {es : List (Document × Document)} (hw : ∀ c ∈ w, isSpace c = true) (h : ∀ x ∈ e :: es, ReadsEntry x (write x)) :
    Reads (.table (e :: es)) ('\x7b' :: closedParts write w '\x7d' e es) := by
  intro n rest hn
  cases n with
  | zero => simp at hn
  | succ n =>
    have hentries := entries?_closedParts hw h n rest (by simp at hn; omega)
    rw [← entries?_skip] at hentries
    have hfirst : ∀ cs, skip (closedParts write w '\x7d' e es ++ rest) ≠ '\x7d' :: cs := by
      intro cs hcs
      rw [hcs, entries?_closing] at hentries
      cases hentries
    rw [List.cons_append, value?, skip_cons rfl]
    simp [hentries]

end Json

/-- On one line, a list is the texts of its items. -/
theorem printItems_eq_map (ds : List Document) : printItems ds = ds.map print := by
  induction ds with
  | nil => rfl
  | cons d ds ih => rw [printItems, ih, List.map_cons]

/-- On one line, a record is the texts of its entries. -/
theorem printEntries_eq_map (es : List (Document × Document)) :
    printEntries es = es.map fun e => e.1.print ++ ":" ++ e.2.print := by
  induction es with
  | nil => rfl
  | cons e es ih => rw [printEntries, ih, List.map_cons]

/-- On lines of its own, a list is the texts of its items. -/
theorem printItemLines_eq_map (level : Nat) (ds : List Document) :
    printItemLines level ds = ds.map (printLines level) := by
  induction ds with
  | nil => rfl
  | cons d ds ih => rw [printItemLines, ih, List.map_cons]

/-- On lines of its own, a record is the texts of its entries. -/
theorem printEntryLines_eq_map (level : Nat) (es : List (Document × Document)) :
    printEntryLines level es = es.map fun e => e.1.printLines level ++ ": " ++ e.2.printLines level := by
  induction es with
  | nil => rfl
  | cons e es ih => rw [printEntryLines, ih, List.map_cons]

/-- Parts with commas between them. -/
theorem toList_intercalate_append {α : Type} (write : α → String) (w : List Char) (closing : Char) (a : α)
    (as : List α) :
    (",".intercalate ((a :: as).map write)).toList ++ (w ++ [closing]) =
      Json.closedParts (fun a => (write a).toList) w closing a as := by
  induction as generalizing a with
  | nil => simp [Json.closedParts]
  | cons b bs ih =>
    rw [Json.closedParts, ← ih, Sql.toList_intercalate_cons, Sql.toList_intercalate_cons]
    simp

/-- Parts on one line have nothing between them but commas. -/
theorem toList_enclosed {α : Type} (write : α → String) (opening closing : Char) (a : α) (as : List α) :
    (enclosed opening closing ((a :: as).map write)).toList =
      opening :: Json.closedParts (fun a => (write a).toList) [] closing a as := by
  rw [← toList_intercalate_append]
  simp [enclosed]

/-- Parts on lines of their own start with the end of the line before them. -/
theorem toList_enclosedLines {α : Type} (write : α → String) (level : Nat) (opening closing : Char) (a : α)
    (as : List α) :
    (enclosedLines level opening closing ((a :: as).map write)).toList =
      opening :: Json.closedParts (fun a => (newLine (level + 1)).toList ++ (write a).toList) (newLine level).toList
        closing a as := by
  have hwrite : (fun a => (newLine (level + 1)).toList ++ (write a).toList) =
      fun a => ((newLine (level + 1) ++ ·) ∘ write $ a).toList := by
    funext a
    simp
  rw [hwrite, ← toList_intercalate_append, enclosedLines, List.map_map]
  simp

/-- The end of a line and what it is indented by are blanks. -/
theorem isSpace_newLine (level : Nat) : ∀ c ∈ (newLine level).toList, Json.isSpace c = true := by
  intro c hc
  rw [newLine, String.toList_ofList] at hc
  rcases List.mem_cons.1 hc with rfl | hc
  · rfl
  · rw [List.eq_of_mem_replicate hc]
    rfl

/-- The entry of a field: its name, a colon and perhaps a blank, and its value. -/
theorem readsEntry_field {f : String × Document} {w cs : List Char} (hw : ∀ c ∈ w, Json.isSpace c = true)
    (h : Json.Reads f.2 cs) :
    Json.ReadsEntry (ofText f.1, f.2) ((quotedText f.1).toList ++ ':' :: (w ++ cs)) :=
  ⟨[], f.1, w ++ cs, by simp, rfl, h.blank_append hw, rfl⟩

namespace Composed

variable {d : Document}

/-- **A document on one line is read as the document.** -/
theorem reads_print (h : d.Composed) : Json.Reads d d.print.toList := by
  induction h with
  | text s => exact Json.reads_text s
  | null => exact Json.reads_null
  | bool b => exact Json.reads_bool b
  | @list items h ih =>
    cases items with
    | nil => exact Json.reads_nil
    | cons d ds =>
      rw [print, printItems_eq_map, toList_enclosed]
      exact Json.reads_list (by simp) ih
  | @record fields h ih =>
    cases fields with
    | nil => exact Json.reads_empty
    | cons f fs =>
      rw [Document.record, List.map_cons, print, printEntries_eq_map, toList_enclosed]
      refine Json.reads_table (by simp) fun x hx => ?_
      have hfield : x ∈ (f :: fs).map fun f => (ofText f.1, f.2) := hx
      obtain ⟨g, hg, rfl⟩ := List.mem_map.1 hfield
      have hentry := readsEntry_field (f := g) (w := []) (by simp) (ih g hg)
      simpa [print, scalarText, ofText] using hentry

/-- **A document on lines of its own is read as the document,** from whatever level in it was printed. -/
theorem reads_printLines (h : d.Composed) (level : Nat) : Json.Reads d (d.printLines level).toList := by
  induction h generalizing level with
  | text s => exact Json.reads_text s
  | null => exact Json.reads_null
  | bool b => exact Json.reads_bool b
  | @list items h ih =>
    cases items with
    | nil =>
      rw [printLines, printItemLines, enclosedLines, if_pos rfl]
      exact Json.reads_nil
    | cons d ds =>
      rw [printLines, printItemLines_eq_map, toList_enclosedLines]
      exact Json.reads_list (isSpace_newLine level) fun x hx => (ih x hx _).blank_append (isSpace_newLine _)
  | @record fields h ih =>
    cases fields with
    | nil =>
      rw [Document.record, List.map_nil, printLines, printEntryLines, enclosedLines, if_pos rfl]
      exact Json.reads_empty
    | cons f fs =>
      rw [Document.record, List.map_cons, printLines, printEntryLines_eq_map, toList_enclosedLines]
      refine Json.reads_table (isSpace_newLine level) fun x hx => Json.ReadsEntry.blank_append (isSpace_newLine _) ?_
      have hfield : x ∈ (f :: fs).map fun f => (ofText f.1, f.2) := hx
      obtain ⟨g, hg, rfl⟩ := List.mem_map.1 hfield
      have hentry := readsEntry_field (f := g) (w := [' ']) (by simp [Json.isSpace]) (ih g hg (level + 1))
      simpa [printLines, scalarText, ofText] using hentry

/-- **Both texts of a document are read as the document,** with nothing left of the text. -/
theorem read?_eq (h : d.Composed) {json : String} (hjson : json ∈ [d.print, d.printLines 0]) :
    Json.read? json = some (d, []) := by
  have hreads : Json.Reads d json.toList := by
    simp only [List.mem_cons, List.not_mem_nil, or_false] at hjson
    rcases hjson with rfl | rfl
    · exact h.reads_print
    · exact h.reads_printLines 0
  have hread := hreads (2 * json.length + 2) [] (by rw [String.length_toList]; omega)
  rwa [List.append_nil] at hread

/-- **Both texts of a document are the document,** when nothing else is in the file. -/
theorem parse?_eq (h : d.Composed) {json : String} (hjson : json ∈ [d.print, d.printLines 0]) :
    Json.parse? json = some d := by
  rw [Json.parse?, h.read?_eq hjson]
  rfl

end Composed
end Document
end TripleSql
