/-
# When the conditions of an element hold of a row

A row satisfies a piece if constants stand in their columns, all columns of a variable have its value, and the filters
hold of the values (`Piece.Satisfied`). Where no triple pattern repeats a variable this is what the conditions say:

* a row that they all hold of satisfies the piece, as they enforce it (`Piece.Enforced.satisfied`),
* of a row that satisfies the piece they all hold, as they are grounded in it (`Piece.Satisfied.holds`).
-/

import TripleSql.Proofs.ChosenRows
import TripleSql.Proofs.Scoping

namespace TripleSql

/-- No triple pattern has one variable as its subject and as its object. -/
def Pattern.Query.LoopFree (q : Query) : Prop :=
  ∀ e ∈ q.required ++ q.optional, ∀ t ∈ e.triples, ∀ v, t.subject = .var v → t.object ≠ .var v

namespace Compile

open Pattern Sql

variable {ops : Operators}

/-- The row satisfies what the piece says of its columns, the variables having the given values. -/
structure Piece.Satisfied (ops : Operators) (x : Piece) (e : Row) (σ : Valuation) : Prop where
  constants : ∀ {c a}, x.Constant c a → e c = some a
  columns : ∀ {v c}, (v, c) ∈ x.columns → e c = σ v
  filters : ∀ f ∈ x.filters, f.compares ops σ = true

section Filters

variable {e : Row} {σ : Valuation}

/-- A node and its operand have one value where columns have the values of their variables. -/
theorem value?_operandOf? {column? : String → Option Column} {n : Node} {o : Operand}
    (h : operandOf? column? n = some o) (hc : ∀ v c, column? v = some c → e c = σ v) :
    o.value? e = n.value? σ := by
  cases n with
  | var v =>
    obtain ⟨c, hv, rfl⟩ := Option.map_eq_some_iff.1 h
    exact hc v c hv
  | const x =>
    obtain rfl := Option.some.inj h
    rfl

/-- **The condition of a filter** holds if the filter does of the values that stand in its columns. -/
theorem holds_conditionOf? {column? : String → Option Column} {f : Filter} {c : Condition}
    (h : conditionOf? column? f = some c) (hc : ∀ v d, column? v = some d → e d = σ v) :
    c.holds ops e = f.compares ops σ := by
  obtain ⟨hl, hr, ho⟩ := conditionOf?_eq_some.1 h
  rw [Condition.holds, Filter.compares, value?_operandOf? hl hc, value?_operandOf? hr hc, ho]

/-- Accepting a filter does not change what it says. -/
theorem compares_of_accept {f f' : Filter} (h : Pending.accept f = .ok f') :
    f.holds ops σ = f'.compares ops σ := by
  rw [Filter.holds]
  unfold Pending.accept at h
  split at h
  · cases h
  · next c hc =>
    split at h
    · cases h
    · cases h
      rw [hc]

/-- Filters hold as their spelled forms compare. -/
theorem forall_compares_of_accept {fs fs' : List Filter} (h : fs.mapM Pending.accept = .ok fs') :
    (∀ f ∈ fs, f.holds ops σ = true) ↔ ∀ f ∈ fs', f.compares ops σ = true := by
  have h := mapM_eq_ok_except.1 h
  constructor
  · intro hall f hf
    obtain ⟨g, hg, hgf⟩ := exists_left_of_forall₂ h hf
    exact compares_of_accept hgf ▸ hall g hg
  · intro hall f hf
    obtain ⟨g, hg, hfg⟩ := exists_right_of_forall₂ h hf
    exact (compares_of_accept hfg).trans (hall g hg)

/-- The filters of the elements hold if those of each piece compare. -/
theorem MembersOf.forall_filters_iff {cat : Catalog} {es : List Element} {ms : List Member} (h : MembersOf cat es ms) :
    (∀ f ∈ es.flatMap Element.filters, f.holds ops σ = true) ↔
      ∀ m ∈ ms, ∀ f ∈ m.piece.filters, f.compares ops σ = true := by
  induction h with
  | nil => simp
  | cons he _ ih =>
    obtain ⟨gp, rfl, hof⟩ := he
    rw [List.flatMap_cons, List.forall_mem_append, ih, List.forall_mem_cons, Element.filters,
      forall_compares_of_accept hof.accepted]

end Filters

namespace Piece

variable {x : Piece} {cs : List Condition} {e : Row} {σ : Valuation}

/-- The conditions that enforce a piece make a row satisfy it. -/
theorem Enforced.satisfied (hx : x.Enforced cs) (hloose : ∀ v c, ¬ x.Loose v c)
    (hb : ∀ {v c}, x.bindings.column? v = some c → e c = σ v) (h : Condition.AllHold ops cs e) :
    x.Satisfied ops e σ := by
  have hcolumns : ∀ {v c}, (v, c) ∈ x.columns → e c = σ v := fun {v c} hc => by
    obtain ⟨d, hd, rfl | hcd⟩ := hx.columns hc (hloose v c)
    · exact hb hd
    · obtain ⟨a, hca, hda⟩ := Condition.holds_columnsEqual.1 (h.of_has hcd)
      rw [hca, ← hda, hb hd]
  refine ⟨fun hc => Condition.holds_columnIs.1 (h.of_has (hx.constants hc)), hcolumns, fun f hf => ?_⟩
  obtain ⟨column?, c, hc, hhas, hcolumn⟩ := hx.filters hf
  rw [← holds_conditionOf? hc fun v d hd => ?_]
  · exact h.of_has hhas
  · rcases (hcolumn v d hd).base_or_mem with hbase | hmem
    · exact hb (Bindings.column?_bindAll_of_column? hbase _)
    · exact hcolumns hmem

/-- A condition that is grounded in a piece holds of a row that satisfies it. -/
theorem Satisfied.holds (h : x.Satisfied ops e σ) (hb : ∀ {v c}, x.base.column? v = some c → e c = σ v)
    (hsome : ∀ {v c}, x.Column v c → ∃ a, e c = some a) {c : Condition} (hc : x.Grounds c) :
    c.holds ops e = true := by
  have hcolumn : ∀ v c, x.Column v c → e c = σ v := fun v c hv => hv.base_or_mem.elim hb h.columns
  cases hc with
  | constant hc => exact Condition.holds_columnIs.2 (h.constants hc)
  | equality hc hd =>
    obtain ⟨a, ha⟩ := hsome hc
    exact Condition.holds_columnsEqual.2 ⟨a, ha, (hcolumn _ _ hd).trans ((hcolumn _ _ hc).symm.trans ha)⟩
  | filter hf he hv =>
    rw [holds_conditionOf? he fun v d hd => hcolumn v d (hv v d hd)]
    exact h.filters _ hf

end Piece

/-- **Without a repeated variable no column escapes.** -/
theorem Compilation.not_loose {cat : Catalog} {q : Query} {targets : List String}
    {ordering : Option (String × Direction)} {st : Statement} {req opt : List Member}
    (h : Compilation cat q targets ordering st req opt) (hq : q.LoopFree) {m : Member} (hm : m ∈ req ++ opt)
    (v : String) (c : Column) : ¬ m.piece.Loose v c := by
  rintro ⟨-, hc, hne⟩
  obtain ⟨gp, hgp, hof⟩ := h.members.exists_of_mem hm
  have ht : m.piece.first.triple ∈ gp.triples := by
    rw [← hof.triples_perm.mem_iff]
    exact List.mem_map.2 ⟨_, List.mem_cons_self .., rfl⟩
  have hloop := hq _ hgp _ ht v
  refine hne ?_
  rw [Placement.column?, Placement.columns, lookup_columns, Placement.slots]
  rcases Placement.mem_slots.1 (Placement.mem_columns.1 hc) with hs | hs
  · obtain ⟨hn, rfl⟩ := Prod.mk.inj hs
    rw [List.lookup_cons, ← hn, beq_self_eq_true]
  · obtain ⟨hn, rfl⟩ := Prod.mk.inj hs
    have hsub : (Node.var v == m.piece.first.triple.subject) = false :=
      beq_eq_false_iff_ne.2 fun he => hloop he.symm hn.symm
    rw [List.lookup_cons, hsub, ← hn, List.lookup_cons, beq_self_eq_true]

end Compile
end TripleSql
