/-
# Tables by predicate

A map from predicates to table names, kept as a list in strictly ascending order of the predicates by code point, so
a predicate has one table and one place. `insert` replaces the table of a predicate that is already there:

| operation | what it does to the list |
| --- | --- |
| `empty` | no entry |
| `insert p t` | `p` gets the table `t`, all else stays |
| `get? p` | the table of `p` |
| `ofPairs` | inserts the pairs in turn, so the last pair of a predicate counts |

Source: specification, 12; the ordered map of predicates in `CatalogConfig` and `PredicateTableMap`.
-/

namespace TripleSql
namespace Catalog

/-- A table name for each of some predicates, in ascending order of the predicates. -/
structure Predicates where
  entries : List (String × String)
  ascending : entries.Pairwise (·.1 < ·.1)

namespace Predicates

/-- The entry at its place in an ascending list, instead of the one that has its predicate. -/
def insertEntry (p t : String) : List (String × String) → List (String × String)
  | [] => [(p, t)]
  | e :: es =>
    if p < e.1 then (p, t) :: e :: es
    else if e.1 < p then e :: insertEntry p t es
    else (p, t) :: es

/-- Inserting adds no entry but the one. -/
theorem mem_insertEntry {p t : String} {e : String × String} {es : List (String × String)}
    (h : e ∈ insertEntry p t es) : e = (p, t) ∨ e ∈ es := by
  induction es with
  | nil => simpa [insertEntry] using h
  | cons d es ih => grind [insertEntry]

/-- Inserting keeps the ascending order of the predicates. -/
theorem pairwise_insertEntry (p t : String) {es : List (String × String)}
    (h : es.Pairwise (·.1 < ·.1)) : (insertEntry p t es).Pairwise (·.1 < ·.1) := by
  induction es with
  | nil => simp [insertEntry]
  | cons d es ih =>
    have ⟨hd, hes⟩ := List.pairwise_cons.1 h
    unfold insertEntry
    split
    · next hp => exact .cons (fun e he => (List.mem_cons.1 he).elim (· ▸ hp) (String.lt_trans hp <| hd e ·)) h
    · split
      · next hp => exact .cons (fun e he => (mem_insertEntry he).elim (· ▸ hp) (hd e)) (ih hes)
      · next h₁ h₂ =>
        have : d.1 = p := String.le_antisymm (String.not_lt.1 h₁) (String.not_lt.1 h₂)
        exact .cons (fun e he => this ▸ hd e he) hes

/-- No predicate has a table. -/
def empty : Predicates := ⟨[], .nil⟩

instance : Inhabited Predicates := ⟨empty⟩

/-- The predicate gets the table. -/
def insert (m : Predicates) (p t : String) : Predicates :=
  ⟨insertEntry p t m.entries, pairwise_insertEntry p t m.ascending⟩

/-- The pairs inserted in turn. -/
def ofPairs (pairs : List (String × String)) : Predicates :=
  pairs.foldl (fun m e => m.insert e.1 e.2) empty

/-- The table of a predicate. -/
def get? (m : Predicates) (p : String) : Option String := m.entries.lookup p

/-- The first entry of a key counts. -/
theorem lookup_cons (e : String × String) (es : List (String × String)) (q : String) :
    (e :: es).lookup q = if q = e.1 then some e.2 else es.lookup q := by
  rw [show (e :: es).lookup q = _ from List.lookup_cons]
  by_cases h : q = e.1 <;> simp [h, beq_eq_false_iff_ne.2]

/-- What is found after an entry was inserted at its place. -/
theorem lookup_insertEntry (p t q : String) (es : List (String × String)) :
    (insertEntry p t es).lookup q = if q = p then some t else es.lookup q := by
  induction es with
  | nil => exact lookup_cons (p, t) [] q
  | cons e es ih =>
    unfold insertEntry
    split
    · rw [lookup_cons]
    · split
      · next hp =>
        have : e.1 ≠ p := fun he => String.lt_irrefl p (he ▸ hp)
        rw [lookup_cons, lookup_cons, ih]
        grind
      · next h₁ h₂ =>
        have : e.1 = p := String.le_antisymm (String.not_lt.1 h₁) (String.not_lt.1 h₂)
        rw [lookup_cons, lookup_cons]
        grind

/-- **The last table of a predicate counts,** and the others keep theirs. -/
theorem get?_insert (m : Predicates) (p t q : String) :
    (m.insert p t).get? q = if q = p then some t else m.get? q :=
  lookup_insertEntry p t q m.entries

/-- **Of some pairs the last one of a predicate counts.** -/
theorem get?_ofPairs (pairs : List (String × String)) (q : String) :
    (ofPairs pairs).get? q = pairs.reverse.lookup q := by
  suffices hfold : ∀ m : Predicates,
      (pairs.foldl (fun m e => m.insert e.1 e.2) m).get? q = (pairs.reverse.lookup q).or (m.get? q) from
    (hfold empty).trans Option.or_none
  intro m
  induction pairs generalizing m with
  | nil => rfl
  | cons e pairs ih =>
    rw [List.foldl_cons, ih, get?_insert, List.reverse_cons, List.lookup_append, Option.or_assoc, lookup_cons]
    by_cases hq : q = e.1 <;> simp [hq, get?]

/-- **A predicate has one entry,** so its table is the one that the list has with it. -/
theorem mem_entries_iff {m : Predicates} {p t : String} : (p, t) ∈ m.entries ↔ m.get? p = some t := by
  constructor
  · intro h
    obtain ⟨l, r, hlr⟩ := List.append_of_mem h
    have hbefore : ∀ e ∈ l, (p != e.1) = true := fun e he => bne_iff_ne.2 fun hpe => by
      have hlt := (List.pairwise_append.1 (hlr ▸ m.ascending)).2.2 e he _ (List.mem_cons_self ..)
      exact String.lt_irrefl p (hpe ▸ hlt)
    exact List.lookup_eq_some_iff.2 ⟨l, r, hlr, hbefore⟩
  · intro h
    obtain ⟨l, r, hlr, -⟩ := List.lookup_eq_some_iff.1 h
    exact hlr ▸ List.mem_append_right _ (List.mem_cons_self ..)

/-- The tables in order of their predicates. -/
def tables (m : Predicates) : List String := m.entries.map (·.2)

end Predicates
end Catalog
end TripleSql
