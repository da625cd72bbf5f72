/-
# What a query asks for

A stored row is a pair of subject and object. A choice takes one stored row for each triple pattern, from the table of
its predicate. It fits if

* all places of one variable have one value, and it is the value that the variable had before, if it had one,
* a constant stands where the pattern has that constant,
* every filter holds, `=` being equality and every other operator any fixed comparison.

The matches of triple patterns are the valuations of the choices that fit, each as often as there are such choices
(`matchesOf`). A query is answered in two stages: the solutions are the matches of all required elements together; to
each of them every optional element adds one of its own matches, or a valuation without values if it has none
(`results`). The order of triple patterns does not matter (`matchesOf_perm`).
-/

import TripleSql.Catalog.Basic
import TripleSql.Pattern.Basic
import TripleSql.Pattern.Comparison
import TripleSql.Proofs.Evaluation
import TripleSql.Proofs.Lists

namespace TripleSql

open Pattern Sql

/-- The stored pairs of subject and object of each table. -/
abbrev Contents := String → Multiset (String × String)

namespace Catalog

/-- The table of the predicate of a triple pattern, if there is one. -/
def tableOf? (cat : Catalog) (t : Triple) : Option String :=
  match t.predicate with
  | .var _ => none
  | .const predicate => cat.predicates.get? predicate

/-- The stored rows that a triple pattern may take. -/
def rowsOf (cat : Catalog) (data : Contents) (t : Triple) : Multiset (String × String) :=
  match cat.tableOf? t with
  | none => 0
  | some table => data table

/-- A stored row under the names of the two columns. -/
def record (cat : Catalog) (row : String × String) : Record := fun name =>
  if name = cat.subjectColumn then some row.1
  else if name = cat.objectColumn then some row.2
  else none

/-- The database that the catalog describes. -/
def store (cat : Catalog) (data : Contents) : Database := fun table => (data table).map cat.record

end Catalog

namespace Pattern

/-- The values of variables. -/
abbrev Valuation := String → Option String

/-- No variable has a value. -/
def Valuation.empty : Valuation := fun _ => none

/-- A valuation with the values of another one for the variables that have none. -/
def Valuation.extend (σ τ : Valuation) : Valuation := fun v => (σ v).or (τ v)

/-- The value of a node. -/
def Node.value? (σ : Valuation) : Node → Option String
  | var v => σ v
  | const x => some x

namespace Filter

/-- The two sides have values that compare by the operator as it is spelled. -/
def compares (ops : Operators) (σ : Valuation) (f : Filter) : Bool :=
  ops.relates f.operator (f.left.value? σ) (f.right.value? σ)

/-- The filter holds, its operator read in whatever spelling. -/
def holds (ops : Operators) (σ : Valuation) (f : Filter) : Bool :=
  match Comparison.ofText? f.operator with
  | some c => compares ops σ { f with operator := c.text }
  | none => false

end Filter

namespace Element

/-- The triple patterns of an element. -/
def triples : Element → List Triple
  | pattern gp => gp.triples
  | query _ _ => []

/-- The filters of an element. -/
def filters : Element → List Filter
  | pattern gp => gp.filters
  | query _ _ => []

/-- The variables of the triple patterns of an element. -/
def vars (e : Element) : List String := e.triples.flatMap Triple.vars

end Element

/-- Triple patterns, each with the stored row that is chosen for it. -/
abbrev Choice := List (Triple × String × String)

namespace Choice

/-- The nodes of the triple patterns, each with the value that stands in its place. -/
def places (ch : Choice) : List (Node × String) := ch.flatMap fun (t, s, o) => [(t.subject, s), (t.object, o)]

/-- The value at the first place of a variable. -/
def valuation (ch : Choice) : Valuation := fun v => ch.places.lookup (.var v)

/-- **The choice fits:** its places agree with each other, with what is known, and with the filters. -/
structure Fits (ops : Operators) (σ : Valuation) (fs : List Filter) (ch : Choice) : Prop where
  agree : ∀ a ∈ ch.places, ∀ b ∈ ch.places, a.1 = b.1 → a.2 = b.2
  known : ∀ a ∈ ch.places, ∀ x ∈ a.1.value? σ, a.2 = x
  filters : ∀ f ∈ fs, f.holds ops (σ.extend ch.valuation) = true

instance (ops : Operators) (σ : Valuation) (fs : List Filter) : DecidablePred (Fits ops σ fs) :=
  fun ch => decidable_of_iff ((∀ a ∈ ch.places, ∀ b ∈ ch.places, a.1 = b.1 → a.2 = b.2) ∧
      (∀ a ∈ ch.places, ∀ x ∈ a.1.value? σ, a.2 = x) ∧ ∀ f ∈ fs, f.holds ops (σ.extend ch.valuation) = true)
    ⟨fun ⟨ha, hk, hf⟩ => ⟨ha, hk, hf⟩, fun ⟨ha, hk, hf⟩ => ⟨ha, hk, hf⟩⟩

variable {ops : Operators} {σ : Valuation} {fs : List Filter} {ch ch' : Choice} {v a : String}

/-- Where the places of a variable agree, its value stands at each of them. -/
theorem valuation_eq_some (h : ∀ a ∈ ch.places, ∀ b ∈ ch.places, a.1 = b.1 → a.2 = b.2) :
    ch.valuation v = some a ↔ (.var v, a) ∈ ch.places := by
  constructor
  · intro hv
    exact mem_of_lookup hv
  · intro hm
    cases hv : ch.valuation v with
    | none =>
      exact absurd hm (not_mem_of_lookup hv a)
    | some b =>
      exact congrArg some (h _ (mem_of_lookup hv) _ hm rfl)

/-- The places of a choice do not depend on its order, but for their own. -/
theorem places_perm (h : ch.Perm ch') : ch.places.Perm ch'.places := h.flatMap_right _

/-- The values of a choice do not depend on its order where repeated variables agree. -/
theorem valuation_eq_of_perm (h : ch.Perm ch')
    (ha : ∀ a ∈ ch.places, ∀ b ∈ ch.places, a.1 = b.1 → a.2 = b.2) : ch.valuation = ch'.valuation := by
  have hp := places_perm h
  refine funext fun v => Option.ext fun a => ?_
  rw [valuation_eq_some ha, valuation_eq_some fun a ha' b hb => ha a (hp.mem_iff.2 ha') b (hp.mem_iff.2 hb),
    hp.mem_iff]

/-- A choice fits in any order. -/
theorem Fits.perm (hf : ch.Fits ops σ fs) (h : ch.Perm ch') : ch'.Fits ops σ fs where
  agree a ha b hb := hf.agree a ((places_perm h).mem_iff.2 ha) b ((places_perm h).mem_iff.2 hb)
  known a ha := hf.known a ((places_perm h).mem_iff.2 ha)
  filters := valuation_eq_of_perm h hf.agree ▸ hf.filters

end Choice

end Pattern

section Query

variable (cat : Catalog) (ops : Operators) (data : Contents)

/-- All choices of one stored row for each triple pattern. -/
def Catalog.choices (ts : List Triple) : Multiset Choice :=
  selections (ts.map fun t => (cat.rowsOf data t).map (t, ·))

/-- The valuations of the choices that fit. -/
def matchesOf (σ : Valuation) (ts : List Triple) (fs : List Filter) : Multiset Valuation :=
  ((cat.choices data ts).filter (Choice.Fits ops σ fs)).map Choice.valuation

/-- The matches of the required elements together. -/
def solutions (es : List Element) : Multiset Valuation :=
  matchesOf cat ops data .empty (es.flatMap Element.triples) (es.flatMap Element.filters)

/-- The matches of an optional element, or a valuation without values if there is none. -/
def answers (σ : Valuation) (e : Element) : Multiset Valuation :=
  padded .empty (matchesOf cat ops data σ e.triples e.filters)

/-- The value of a target: that of the required elements where they have the variable, and else that of the first
optional element that has it. -/
def targetValue (q : Query) (σ : Valuation) (τs : List Valuation) (v : String) : Option String :=
  if v ∈ q.required.flatMap Element.vars then σ v
  else ((q.optional.zip τs).find? fun e => v ∈ e.1.vars).bind fun e => e.2 v

/-- The result rows that a solution is part of. -/
def resultsWith (q : Query) (targets : List String) (σ : Valuation) : Multiset (List (Option String)) :=
  (selections (q.optional.map (answers cat ops data σ))).map fun τs => targets.map (targetValue q σ τs)

/-- **The order of triple patterns does not matter** for what they match. -/
theorem matchesOf_perm {σ : Valuation} {ts us : List Triple} {fs : List Filter} (h : ts.Perm us) :
    matchesOf cat ops data σ ts fs = matchesOf cat ops data σ us fs := by
  have asBind : ∀ M : Multiset Choice, (M.filter (Choice.Fits ops σ fs)).map Choice.valuation =
      M.bind fun ch => if ch.Fits ops σ fs then {ch.valuation} else 0 := fun M => by
    rw [← Multiset.bind_singleton, Multiset.bind_filter]
  rw [matchesOf, matchesOf, asBind, asBind, Catalog.choices, Catalog.choices]
  refine bind_selections_perm h _ fun {ch ch' : Choice} hp => ?_
  by_cases hf : ch.Fits ops σ fs
  · rw [if_pos hf, if_pos (hf.perm hp), Choice.valuation_eq_of_perm hp hf.agree]
  · rw [if_neg hf, if_neg fun hf' => hf (hf'.perm hp.symm)]

end Query

end TripleSql
