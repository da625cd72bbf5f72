/-
# Why a condition stands in a statement

A compiled condition says one of three things (`Grounded`): a column has a constant of a triple pattern, two columns of
one variable are equal, or a filter holds of columns of its variables. Which columns and constants these are is left
open here; to say that a condition reads certain tables only, or holds of certain rows, it is enough to say it of them.

The filters of a graph pattern become conditions one after the other: what is taken from the waiting ones is rendered
with the columns that their variables are bound to (`Pending.mem_take`), and what is not taken keeps waiting
(`Pending.mem_or_has_take`).
-/

import TripleSql.Compile.Pending
import TripleSql.Proofs.Conditions

namespace TripleSql
namespace Compile

open Pattern Sql

/-- The condition is one on a constant, an equality of two columns of a variable, or a filter on such columns. -/
inductive Grounded (column : String → Column → Prop) (constant : Column → String → Prop)
    (filters : List Filter) : Condition → Prop
  | constant {c : Column} {x : String} (h : constant c x) :
    Grounded column constant filters (Condition.columnIs c x)
  | equality {v : String} {c d : Column} (hc : column v c) (hd : column v d) :
    Grounded column constant filters (Condition.columnsEqual c d)
  | filter {f : Filter} {column? : String → Option Column} {e : Condition} (hf : f ∈ filters)
    (he : conditionOf? column? f = some e) (h : ∀ v c, column? v = some c → column v c) :
    Grounded column constant filters e

/-- A filter has a condition if each of its sides has an operand. -/
theorem conditionOf?_eq_some {column? : String → Option Column} {f : Filter} {e : Condition} :
    conditionOf? column? f = some e ↔ operandOf? column? f.left = some e.left ∧
      operandOf? column? f.right = some e.right ∧ e.operator = f.operator := by
  rcases e with ⟨l, o, r⟩
  simp only [conditionOf?, Option.pure_def, Option.bind_eq_bind, Option.bind_eq_some_iff,
    Option.some.injEq, Condition.mk.injEq]
  constructor
  · rintro ⟨_, hl, _, hr, rfl, rfl, rfl⟩
    exact ⟨hl, hr, rfl⟩
  · rintro ⟨hl, hr, rfl⟩
    exact ⟨l, hl, r, hr, rfl, rfl, rfl⟩

/-- A side that becomes a column is a variable. -/
theorem operandOf?_eq_column {column? : String → Option Column} {n : Node} {c : Column} :
    operandOf? column? n = some (.column c) ↔ ∃ v, n = .var v ∧ column? v = some c := by
  cases n <;> simp [operandOf?]

/-- Columns that are known stay what they are when more become known. -/
theorem operandOf?_mono {column? column'? : String → Option Column}
    (h : ∀ v c, column? v = some c → column'? v = some c) {n : Node} {o : Operand}
    (ho : operandOf? column? n = some o) : operandOf? column'? n = some o := by
  cases n with
  | var v =>
    obtain ⟨c, hc, rfl⟩ := Option.map_eq_some_iff.1 ho
    exact Option.map_eq_some_iff.2 ⟨c, h v c hc, rfl⟩
  | const x => exact ho

/-- What is known of more variables gives the conditions that are there the same sides. -/
theorem conditionOf?_mono {column? column'? : String → Option Column}
    (h : ∀ v c, column? v = some c → column'? v = some c) {f : Filter} {e : Condition}
    (he : conditionOf? column? f = some e) : conditionOf? column'? f = some e := by
  rw [conditionOf?_eq_some] at he ⊢
  exact ⟨operandOf?_mono h he.1, operandOf?_mono h he.2.1, he.2.2⟩

/-- The sides of a condition that a filter becomes read columns of its variables. -/
theorem exists_var_of_mem_aliases {column? : String → Option Column} {f : Filter} {e : Condition}
    (h : conditionOf? column? f = some e) {a : String} (ha : a ∈ e.aliases) :
    ∃ v ∈ f.vars, ∃ c, column? v = some c ∧ c.tableAlias = a := by
  obtain ⟨hl, hr, -⟩ := conditionOf?_eq_some.1 h
  have side : ∀ {n : Node} {o : Operand}, operandOf? column? n = some o → o.alias? = some a →
      ∃ v, n = .var v ∧ ∃ c, column? v = some c ∧ c.tableAlias = a := fun {n o} hn ho => by
    cases o with
    | literal x => cases ho
    | column c =>
      obtain ⟨v, hv, hc⟩ := operandOf?_eq_column.1 hn
      exact ⟨v, hv, c, hc, Option.some.inj ho⟩
  rcases Condition.mem_aliases.1 ha with ha | ha
  · obtain ⟨v, hv, hc⟩ := side hl ha
    exact ⟨v, Filter.mem_vars.2 (.inl hv), hc⟩
  · obtain ⟨v, hv, hc⟩ := side hr ha
    exact ⟨v, Filter.mem_vars.2 (.inr hv), hc⟩

/-- The variables of a filter that becomes a condition have columns, and the condition reads them. -/
theorem exists_column_of_mem_vars {column? : String → Option Column} {f : Filter} {e : Condition}
    (h : conditionOf? column? f = some e) {v : String} (hv : v ∈ f.vars) :
    ∃ c, column? v = some c ∧ c.tableAlias ∈ e.aliases := by
  obtain ⟨hl, hr, -⟩ := conditionOf?_eq_some.1 h
  rcases Filter.mem_vars.1 hv with hn | hn
  · rw [hn] at hl
    obtain ⟨c, hc, hl⟩ := Option.map_eq_some_iff.1 hl
    exact ⟨c, hc, Condition.mem_aliases.2 (.inl (by rw [← hl]; rfl))⟩
  · rw [hn] at hr
    obtain ⟨c, hc, hr⟩ := Option.map_eq_some_iff.1 hr
    exact ⟨c, hc, Condition.mem_aliases.2 (.inr (by rw [← hr]; rfl))⟩

namespace Grounded

variable {column column' : String → Column → Prop} {constant constant' : Column → String → Prop}
  {filters filters' : List Filter} {e : Condition}

/-- What is grounded stays so where more is known. -/
theorem mono (h : Grounded column constant filters e) (hcol : ∀ v c, column v c → column' v c)
    (hcon : ∀ c x, constant c x → constant' c x) (hfil : ∀ f ∈ filters, f ∈ filters') :
    Grounded column' constant' filters' e := by
  cases h with
  | constant h => exact .constant (hcon _ _ h)
  | equality hc hd => exact .equality (hcol _ _ hc) (hcol _ _ hd)
  | filter hf he h => exact .filter (hfil _ hf) he fun v c hv => hcol _ _ (h v c hv)

/-- **A condition reads nothing but the columns it is grounded on.** -/
theorem reads (h : Grounded column constant filters e) {c : Column}
    (hc : e.left = .column c ∨ e.right = .column c) : (∃ v, column v c) ∨ ∃ x, constant c x := by
  cases h with
  | constant h =>
    simp only [Condition.columnIs, Operand.column.injEq, reduceCtorEq, or_false] at hc
    exact .inr ⟨_, hc ▸ h⟩
  | equality hc' hd =>
    simp only [Condition.columnsEqual, Operand.column.injEq] at hc
    rcases hc with rfl | rfl
    · exact .inl ⟨_, hc'⟩
    · exact .inl ⟨_, hd⟩
  | filter hf he h =>
    obtain ⟨hl, hr, -⟩ := conditionOf?_eq_some.1 he
    rcases hc with hc | hc
    · obtain ⟨v, -, hv⟩ := operandOf?_eq_column.1 (hc ▸ hl)
      exact .inl ⟨v, h v c hv⟩
    · obtain ⟨v, -, hv⟩ := operandOf?_eq_column.1 (hc ▸ hr)
      exact .inl ⟨v, h v c hv⟩

/-- Where the columns and constants are under certain aliases, so is all that the condition reads. -/
theorem aliases_subset (h : Grounded column constant filters e) {as : List String}
    (hcol : ∀ v c, column v c → c.tableAlias ∈ as) (hcon : ∀ c x, constant c x → c.tableAlias ∈ as) :
    ∀ a ∈ e.aliases, a ∈ as := by
  have read : ∀ {c : Column}, e.left = .column c ∨ e.right = .column c → c.tableAlias ∈ as := fun hc =>
    (h.reads hc).elim (fun ⟨v, hv⟩ => hcol v _ hv) fun ⟨x, hx⟩ => hcon _ x hx
  intro a ha
  rcases Condition.mem_aliases.1 ha with ha | ha
  · cases hl : e.left with
    | column c => rw [hl] at ha; exact Option.some.inj ha ▸ read (.inl hl)
    | literal x => rw [hl] at ha; cases ha
  · cases hr : e.right with
    | column c => rw [hr] at ha; exact Option.some.inj ha ▸ read (.inr hr)
    | literal x => rw [hr] at ha; cases ha

end Grounded

namespace Pending

/-- A filter that is accepted compares what it compared before. -/
theorem accept_vars {f f' : Filter} (h : accept f = .ok f') : f'.vars = f.vars := by
  unfold accept at h
  split at h
  · cases h
  · split at h
    · cases h
    · cases h
      rfl

/-- What is taken is the condition of a filter that waited and has one of the variables. -/
theorem mem_takeEach {b : Bindings} {vs : List String} {p : Pending} {e : Condition}
    (h : e ∈ (takeEach b vs p).1) :
    ∃ f ∈ p.filters, (∃ v ∈ vs, v ∈ f.vars) ∧ conditionOf? b.column? f = some e := by
  induction vs generalizing p with
  | nil => cases h
  | cons v vs ih =>
    rcases List.mem_append.1 h with h | h
    · obtain ⟨f, hf, he⟩ := List.mem_filterMap.1 h
      obtain ⟨hf, hready⟩ := List.mem_filter.1 hf
      have hv : v ∈ f.vars := List.contains_iff_mem.1 (Bool.and_eq_true_iff.1 hready).1
      exact ⟨f, hf, ⟨v, List.mem_cons_self .., hv⟩, he⟩
    · obtain ⟨f, hf, ⟨w, hw, hwf⟩, he⟩ := ih h
      exact ⟨f, (List.mem_filter.1 hf).1, ⟨w, List.mem_cons_of_mem _ hw, hwf⟩, he⟩

/-- What waits after some were taken waited before. -/
theorem mem_of_mem_takeEach {b : Bindings} {vs : List String} {p : Pending} {f : Filter}
    (h : f ∈ (takeEach b vs p).2.filters) : f ∈ p.filters := by
  induction vs generalizing p with
  | nil => exact h
  | cons v vs ih => exact (List.mem_filter.1 (ih h)).1

/-- **No filter is lost:** it still waits, or its condition was taken. -/
theorem mem_or_mem_takeEach {b : Bindings} (vs : List String) {p : Pending} {f : Filter}
    (h : f ∈ p.filters) :
    f ∈ (takeEach b vs p).2.filters ∨
      ∃ e ∈ (takeEach b vs p).1, conditionOf? b.column? f = some e := by
  induction vs generalizing p with
  | nil => exact .inl h
  | cons v vs ih =>
    by_cases hr : isReady b v f = true
    · obtain ⟨e, he⟩ := Option.isSome_iff_exists.1 (Bool.and_eq_true_iff.1 hr).2
      exact .inr ⟨e, List.mem_append_left _ (List.mem_filterMap.2 ⟨f, List.mem_filter.2 ⟨h, hr⟩, he⟩), he⟩
    · rcases ih (p := (takeAt b v p).2) (List.mem_filter.2 ⟨h, by simpa using hr⟩) with h | ⟨e, he, hf⟩
      · exact .inl h
      · exact .inr ⟨e, List.mem_append_right _ he, hf⟩

/-- What is taken is a filter with one of the variables, its variables standing for the columns that they are bound
to. -/
theorem mem_take {b : Bindings} {vs : List String} {p : Pending} {e : Condition}
    (h : e ∈ (p.take b vs).1) :
    ∃ f ∈ p.filters, (∃ v ∈ vs, v ∈ f.vars) ∧ conditionOf? b.column? f = some e :=
  mem_takeEach (Condition.mem_distinct h)

/-- What waits after a join waited before it. -/
theorem mem_of_mem_take {b : Bindings} {vs : List String} {p : Pending} {f : Filter}
    (h : f ∈ (p.take b vs).2.filters) : f ∈ p.filters := mem_of_mem_takeEach h

/-- **No filter is dropped:** it keeps waiting or becomes a condition. -/
theorem mem_or_has_take {b : Bindings} (vs : List String) {p : Pending} {f : Filter}
    (h : f ∈ p.filters) :
    f ∈ (p.take b vs).2.filters ∨
      ∃ e, conditionOf? b.column? f = some e ∧ Condition.Has (p.take b vs).1 e :=
  (mem_or_mem_takeEach vs h).imp_right fun ⟨e, he, hf⟩ => ⟨e, hf, Condition.has_distinct he⟩

end Pending
end Compile
end TripleSql
