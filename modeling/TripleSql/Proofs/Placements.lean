/-
# What placing a triple pattern does

A placed triple pattern stands on the table of its predicate under an alias that was not taken (`place_eq_ok`). Placing
it takes the alias, binds the variables of the pattern that are not bound, and lets its constants wait under the
alias; nothing else changes.

`Scope.Fresh` says that a scope knows no alias but taken ones, each once. It is kept by every step, and is what
separates the columns and constants of one element from those of another.
-/

import TripleSql.Compile.Scope
import TripleSql.Proofs.Conditions
import TripleSql.Proofs.Freshness
import TripleSql.Proofs.Lists

namespace TripleSql
namespace Compile

open Pattern Sql

/-- An admitted catalog has two different columns. -/
theorem subjectColumn_ne_objectColumn {cat : Catalog} (h : cat.check = .ok ()) :
    cat.subjectColumn ≠ cat.objectColumn := by
  intro he
  simp only [Catalog.check, bind, Except.bind, if_pos he] at h
  repeat' split at h
  all_goals cases h

namespace Bindings

/-- Two lists are bound one after the other. -/
theorem bindAll_append (b : Bindings) (es fs : List (String × Column)) :
    b.bindAll (es ++ fs) = (b.bindAll es).bindAll fs := List.foldl_append

/-- Bindings stay when more is bound. -/
theorem column?_bindAll_of_column? {b : Bindings} {v : String} {c : Column} (h : b.column? v = some c)
    (es : List (String × Column)) : (b.bindAll es).column? v = some c := by
  rw [column?_bindAll, h, Option.some_or]

end Bindings

namespace Placement

/-- The alias of the table of a placement. -/
def aliasName (p : Placement) : String := p.table.aliasName

/-- The constants of the pattern, each with its column. -/
def constants (p : Placement) : List (Column × String) :=
  p.slots.filterMap fun s => match s.1 with
    | .var _ => none
    | .const x => some (s.2, x)

/-- The pattern stands on the table of its predicate, with the columns of the catalog. -/
structure Of (cat : Catalog) (p : Placement) : Prop where
  table : ∃ predicate, p.triple.predicate = .const predicate ∧
    cat.predicates.get? predicate = some p.table.name
  subject : p.subject = ⟨p.aliasName, cat.subjectColumn⟩
  object : p.object = ⟨p.aliasName, cat.objectColumn⟩

/-- The two nodes of a placement are its subject and its object. -/
theorem mem_slots {p : Placement} {s : Node × Column} :
    s ∈ p.slots ↔ s = (p.triple.subject, p.subject) ∨ s = (p.triple.object, p.object) := by
  simp [slots]

/-- The columns of variables are those of the nodes that are variables. -/
theorem mem_columns {p : Placement} {v : String} {c : Column} :
    (v, c) ∈ p.columns ↔ (.var v, c) ∈ p.slots := by
  simp only [columns, List.mem_filterMap, Option.map_eq_some_iff, Prod.mk.injEq]
  constructor
  · rintro ⟨⟨n, d⟩, hs, w, hw, rfl, rfl⟩
    cases n with
    | var u => exact Option.some.inj hw ▸ hs
    | const x => cases hw
  · exact fun hs => ⟨(.var v, c), hs, v, rfl, rfl, rfl⟩

/-- The constants are the nodes that are no variables. -/
theorem mem_constants {p : Placement} {c : Column} {x : String} :
    (c, x) ∈ p.constants ↔ (.const x, c) ∈ p.slots := by
  simp only [constants, List.mem_filterMap]
  constructor
  · rintro ⟨⟨n, d⟩, hs, hn⟩
    cases n with
    | var u => cases hn
    | const y => cases hn; exact hs
  · exact fun hs => ⟨(.const x, c), hs, rfl⟩

/-- **All columns of a placement are under its alias.** -/
theorem Of.tableAlias_eq {cat : Catalog} {p : Placement} (hp : p.Of cat) {s : Node × Column}
    (h : s ∈ p.slots) : s.2.tableAlias = p.aliasName := by
  rcases mem_slots.1 h with rfl | rfl
  · exact congrArg Column.tableAlias hp.subject
  · exact congrArg Column.tableAlias hp.object

/-- All columns of a placement are columns of its table. -/
theorem Of.tableAlias_eq_of_mem_columns {cat : Catalog} {p : Placement} (hp : p.Of cat)
    {e : String × Column} (h : e ∈ p.columns) : e.2.tableAlias = p.aliasName :=
  hp.tableAlias_eq (mem_columns.1 h)

/-- The first column of a variable is one of its columns. -/
theorem mem_columns_of_column? {p : Placement} {v : String} {c : Column} (h : p.column? v = some c) :
    (v, c) ∈ p.columns := mem_of_lookup h

end Placement

namespace Constants

/-- The constants of a placement wait under their aliases. -/
def addAll (k : Constants) (cs : List (Column × String)) : Constants :=
  cs.foldl (fun k e => k.add e.1.tableAlias (Condition.columnIs e.1 e.2)) k

/-- Under an alias nothing is added but what is added under it. -/
theorem mem_under_add {k : Constants} {a b : String} {c d : Condition}
    (h : d ∈ (k.add a c).under b) : d ∈ k.under b ∨ b = a ∧ d = c := by
  rw [under_add] at h
  split at h
  · next hb =>
    subst hb
    exact (Condition.mem_push h).imp_right fun hd => ⟨rfl, hd⟩
  · exact .inl h

/-- What waits after some constants were added waited before or is one of them, under the alias of its column. -/
theorem mem_under_addAll {k : Constants} {cs : List (Column × String)} {b : String} {d : Condition}
    (h : d ∈ (k.addAll cs).under b) :
    d ∈ k.under b ∨ ∃ c x, (c, x) ∈ cs ∧ b = c.tableAlias ∧ d = Condition.columnIs c x := by
  induction cs generalizing k with
  | nil => exact .inl h
  | cons e cs ih =>
    rcases ih h with h | ⟨c, x, hc, hb⟩
    · rcases mem_under_add h with h | ⟨hb, hd⟩
      · exact .inl h
      · exact .inr ⟨e.1, e.2, List.mem_cons_self .., hb, hd⟩
    · exact .inr ⟨c, x, List.mem_cons_of_mem _ hc, hb⟩

/-- What waits goes on to wait when constants are added. -/
theorem mem_under_addAll_of_mem {k : Constants} {b : String} {d : Condition} (h : d ∈ k.under b)
    (cs : List (Column × String)) : d ∈ (k.addAll cs).under b := by
  induction cs generalizing k with
  | nil => exact h
  | cons e cs ih =>
    refine ih ?_
    rw [under_add]
    split
    · next hb => exact Condition.mem_push_of_mem (hb ▸ h) _
    · exact h

/-- **Every constant that is added waits,** itself or an equivalent one. -/
theorem has_under_addAll {k : Constants} {cs : List (Column × String)} {c : Column} {x : String}
    (h : (c, x) ∈ cs) : Condition.Has ((k.addAll cs).under c.tableAlias) (Condition.columnIs c x) := by
  induction cs generalizing k with
  | nil => cases h
  | cons e cs ih =>
    rcases List.mem_cons.1 h with rfl | h
    · have : Condition.Has ((k.add c.tableAlias (Condition.columnIs c x)).under c.tableAlias)
          (Condition.columnIs c x) := by
        rw [under_add, if_pos rfl]
        exact Condition.has_push_self ..
      exact this.mono fun e he => mem_under_addAll_of_mem he cs
    · exact ih h

/-- Other aliases are not touched. -/
theorem under_addAll_of_ne {k : Constants} {cs : List (Column × String)} {b : String}
    (h : ∀ e ∈ cs, e.1.tableAlias ≠ b) : (k.addAll cs).under b = k.under b := by
  induction cs generalizing k with
  | nil => rfl
  | cons e cs ih =>
    rw [addAll, List.foldl_cons, ← addAll, ih fun e' he' => h e' (List.mem_cons_of_mem _ he'), under_add,
      if_neg (h e (List.mem_cons_self ..)).symm]

end Constants

namespace Scope

/-- The scope after the nodes of a placement are recorded. -/
def recordAll (s : Scope) (p : Placement) : Scope :=
  { s with bindings := s.bindings.bindAll p.columns, constants := s.constants.addAll p.constants }

/-- Recording the nodes one after the other binds the variables in order and lets the constants wait in order. -/
theorem foldl_record (s : Scope) (p : Placement) : p.slots.foldl record s = s.recordAll p := by
  rcases p with ⟨⟨_ | _, _, _ | _⟩, _, _, _⟩ <;> rfl

/-- Every alias is taken once, and columns and waiting constants are under taken aliases. -/
structure Fresh (s : Scope) : Prop where
  nodup : s.aliases.taken.Nodup
  bindings : ∀ {v c}, s.bindings.column? v = some c → c.tableAlias ∈ s.aliases.taken
  constants : ∀ {a c}, c ∈ s.constants.under a → a ∈ s.aliases.taken

/-- Nothing is known at the start. -/
theorem fresh_empty : Fresh {} := ⟨.nil, nofun, nofun⟩

/-- Aliases that are taken on top of others are none of those. -/
theorem Fresh.not_mem_of_taken {s : Scope} (h : s.Fresh) {as bs : List String} (ht : s.aliases.taken = as ++ bs)
    {a : String} (ha : a ∈ bs) : a ∉ as := fun hb => by
  have hn := h.nodup
  rw [ht] at hn
  exact List.disjoint_of_nodup_append hn hb ha

end Scope

/-- **What placing does:** the pattern stands on its table under an alias that was not taken, the alias is taken, and
the nodes are recorded. -/
theorem place_eq_ok {cat : Catalog} {t : Triple} {s s' : Scope} {p : Placement}
    (h : place cat t s = .ok p s') :
    p.triple = t ∧ p.Of cat ∧ p.aliasName ∉ s.aliases.taken ∧
      s'.aliases.taken = s.aliases.taken ++ [p.aliasName] ∧
      s'.bindings = s.bindings.bindAll p.columns ∧ s'.constants = s.constants.addAll p.constants := by
  unfold place at h
  split at h
  · cases h
  · cases h
  · next table aliases hr =>
    simp only [EStateM.Result.ok.injEq, Scope.foldl_record] at h
    obtain ⟨rfl, rfl⟩ := h
    obtain ⟨predicate, hn, hg, hfree, htaken⟩ := Catalog.resolve_eq_ok hr
    exact ⟨rfl, ⟨⟨predicate, hn, hg⟩, rfl, rfl⟩, hfree, htaken, rfl, rfl⟩

end Compile
end TripleSql
