/-
# Graph patterns and queries

A triple pattern has a subject, a predicate and an object; a filter compares two nodes. A graph pattern holds
triple patterns and the filters scoped to them. A query requires some elements and takes others as optional; an
element is a graph pattern or a query of its own.

Predicates are never joined on: the variables of a triple pattern are those of its subject and its object.

Source: specification, 3; `TriplePattern` with `join_variables`, `NodeFilter` with `variables`, `GraphPattern`,
`QueryElement` with `kind`, `ElementRole` and `GraphQuery`.
-/

import TripleSql.Pattern.Node

namespace TripleSql
namespace Pattern

/-- Subject, predicate and object. -/
structure Triple where
  subject : Node
  predicate : Node
  object : Node
deriving DecidableEq, Repr

/-- The comparison of two nodes, its operator as it was written. -/
structure Filter where
  left : Node
  operator : String
  right : Node
deriving DecidableEq, Repr

/-- Triple patterns and the filters scoped to them. -/
structure GraphPattern where
  triples : List Triple
  filters : List Filter := []
deriving DecidableEq, Repr

/-- A graph pattern or a nested query. -/
inductive Element where
  | pattern (pattern : GraphPattern)
  | query (required optional : List Element)
deriving Repr

/-- The elements that a result row must match, and those that it matches where it can. -/
structure Query where
  required : List Element := []
  optional : List Element := []
deriving Repr

/-- The list of a query that an element stands in. -/
inductive Role where
  | required
  | optional
deriving DecidableEq, Repr

namespace Triple

/-- The variables of subject and object, in this order. -/
def vars (t : Triple) : List String := [t.subject, t.object].filterMap Node.var?

/-- The three nodes with a blank between two of them. -/
def text (t : Triple) : String := t.subject.text ++ " " ++ t.predicate.text ++ " " ++ t.object.text

end Triple

namespace Filter

/-- The distinct variables of the two sides, left one first. -/
def vars (f : Filter) : List String :=
  match f.left, f.right with
  | .var a, .var b => if a = b then [a] else [a, b]
  | .var a, .const _ => [a]
  | .const _, .var b => [b]
  | .const _, .const _ => []

/-- The two sides around the operator. -/
def text (f : Filter) : String := f.left.text ++ " " ++ f.operator ++ " " ++ f.right.text

/-- The variables of a filter are those of its sides. -/
theorem mem_vars {f : Filter} {v : String} :
    v ∈ f.vars ↔ f.left = .var v ∨ f.right = .var v := by
  rcases f with ⟨_ | _, _, _ | _⟩ <;> grind [vars]

/-- A filter of one variable on both sides has it once. -/
theorem nodup_vars (f : Filter) : f.vars.Nodup := by
  rcases f with ⟨_ | _, _, _ | _⟩ <;> grind [vars]

end Filter

namespace Element

/-- The element in words. -/
def kind : Element → String
  | pattern _ => "graph pattern"
  | query _ _ => "nested graph query"

end Element

namespace Role

/-- The role in words. -/
def text : Role → String
  | required => "required"
  | optional => "optional"

end Role
end Pattern
end TripleSql
