/-
# Pieces

What is known of a compiled graph pattern (`Piece`): the columns that variables had before it, the placements of its
triple patterns in the order in which they were joined, and its filters. The conditions of the piece are judged against
it in two ways.

* Each is grounded in the piece: it speaks of the columns that stand for the variables of the piece (`Piece.Column`)
  and of the constants of its placements (`Piece.Constant`).
* Together they enforce the piece (`Piece.Enforced`): every constant, every filter, and the equality of each column of a
  variable with the column that the variable is bound to.

One kind of column escapes, the second column of a variable that is written twice in the first triple pattern and
that had no column before (`Piece.Loose`). No condition reads it as a column of the variable.
-/

import TripleSql.Proofs.Grounds
import TripleSql.Proofs.Placements

namespace TripleSql
namespace Compile

open Pattern Sql

/-- A compiled graph pattern: the bindings before it, its placements as they were joined, and its filters with their
operators spelled as in SQL. -/
structure Piece where
  base : Bindings
  first : Placement
  rest : List Placement := []
  filters : List Filter

namespace Piece

/-- The placements in the order in which they were joined. -/
def placements (x : Piece) : List Placement := x.first :: x.rest

/-- The variables of the placements, each with its column. -/
def columns (x : Piece) : List (String × Column) := x.placements.flatMap Placement.columns

/-- The aliases of the placements. -/
def aliases (x : Piece) : List String := x.placements.map Placement.aliasName

/-- The bindings after the piece. -/
def bindings (x : Piece) : Bindings := x.base.bindAll x.columns

/-- The constant stands on the column in a placement. -/
def Constant (x : Piece) (c : Column) (a : String) : Prop := ∃ p ∈ x.placements, (.const a, c) ∈ p.slots

/-- The column stands for the variable: it had it before, or it has it in a placement, but in the first one a
variable without a column before is represented by its first column only. -/
def Column (x : Piece) (v : String) (c : Sql.Column) : Prop :=
  x.base.column? v = some c ∨ x.first.column? v = some c ∨ (∃ p ∈ x.rest, (v, c) ∈ p.columns) ∨
    (x.base.column? v).isSome ∧ (v, c) ∈ x.first.columns

/-- The column is the second one of a variable in the first triple pattern, and the variable had none before. -/
def Loose (x : Piece) (v : String) (c : Sql.Column) : Prop :=
  x.base.column? v = none ∧ (v, c) ∈ x.first.columns ∧ x.first.column? v ≠ some c

/-- The condition is grounded in the piece. -/
def Grounds (x : Piece) (e : Condition) : Prop := Grounded x.Column x.Constant x.filters e

/-- The conditions enforce all that the piece says. -/
structure Enforced (x : Piece) (cs : List Condition) : Prop where
  constants : ∀ {c a}, x.Constant c a → Condition.Has cs (Condition.columnIs c a)
  columns : ∀ {v c}, (v, c) ∈ x.columns → ¬ x.Loose v c →
    ∃ d, x.bindings.column? v = some d ∧ (d = c ∨ Condition.Has cs (Condition.columnsEqual c d))
  filters : ∀ {f}, f ∈ x.filters → ∃ column? e, conditionOf? column? f = some e ∧ Condition.Has cs e ∧
    ∀ v c, column? v = some c → x.Column v c

/-- The piece with one more placement. -/
def push (x : Piece) (p : Placement) : Piece := { x with rest := x.rest ++ [p] }

variable {x : Piece} {v a : String} {c : Sql.Column}

/-- A placement is joined behind those before it. -/
@[simp] theorem placements_push (p : Placement) : (x.push p).placements = x.placements ++ [p] := rfl

/-- A longer piece has one placement more. -/
theorem mem_placements_push {p q : Placement} :
    q ∈ (x.push p).placements ↔ q ∈ x.placements ∨ q = p := by
  rw [placements_push, List.mem_append, List.mem_singleton]

/-- A longer piece has the constants of one placement more. -/
theorem constant_push {p : Placement} :
    (x.push p).Constant c a ↔ x.Constant c a ∨ (.const a, c) ∈ p.slots := by
  simp only [Constant, mem_placements_push, or_and_right, exists_or, exists_eq_left]

/-- A longer piece has the columns of one placement more. -/
@[simp] theorem columns_push (p : Placement) : (x.push p).columns = x.columns ++ p.columns := by
  simp [columns]

/-- A longer piece has one alias more. -/
@[simp] theorem aliases_push (p : Placement) : (x.push p).aliases = x.aliases ++ [p.aliasName] := by
  simp [aliases]

/-- What a longer piece knows is what it knew and the columns of one placement more. -/
theorem bindings_push (p : Placement) : (x.push p).bindings = x.bindings.bindAll p.columns := by
  rw [bindings, columns_push, Bindings.bindAll_append]
  rfl

/-- A column of a piece is a column of one of its placements. -/
theorem mem_columns : (v, c) ∈ x.columns ↔ ∃ p ∈ x.placements, (v, c) ∈ p.columns := List.mem_flatMap

/-- Every column of a placement behind the first one stands for its variable. -/
theorem column_of_mem_rest {p : Placement} (hp : p ∈ x.rest) (h : (v, c) ∈ p.columns) : x.Column v c :=
  .inr (.inr (.inl ⟨p, hp, h⟩))

/-- The first column of a variable in the piece stands for it. -/
theorem column_of_lookup (h : x.columns.lookup v = some c) : x.Column v c := by
  rw [columns, placements, List.flatMap_cons, List.lookup_append] at h
  cases hf : x.first.columns.lookup v with
  | some d =>
    rw [hf, Option.some_or] at h
    exact .inr (.inl (hf.trans h))
  | none =>
    rw [hf, Option.none_or] at h
    obtain ⟨p, hp, hv⟩ := List.mem_flatMap.1 (mem_of_lookup h)
    exact column_of_mem_rest hp hv

/-- The column that a variable is bound to stands for it. -/
theorem column_of_bindings (h : x.bindings.column? v = some c) : x.Column v c := by
  rw [bindings, Bindings.column?_bindAll] at h
  cases hb : x.base.column? v with
  | some d => exact .inl (hb.trans (by rwa [hb, Option.some_or] at h))
  | none => exact column_of_lookup (by rwa [hb, Option.none_or] at h)

/-- What stands for a variable stands for it in a longer piece. -/
theorem Column.push (h : x.Column v c) (p : Placement) : (x.push p).Column v c := by
  rcases h with h | h | ⟨q, hq, h⟩ | h
  · exact .inl h
  · exact .inr (.inl h)
  · exact .inr (.inr (.inl ⟨q, List.mem_append_left _ hq, h⟩))
  · exact .inr (.inr (.inr h))

/-- A condition that is grounded in a piece is grounded in a longer one. -/
theorem Grounds.push {e : Condition} (h : x.Grounds e) (p : Placement) : (x.push p).Grounds e :=
  h.mono (fun _ _ hc => hc.push p) (fun _ _ hc => constant_push.2 (.inl hc)) fun _ hf => hf

/-- A column that stands for a variable was bound to it before or has it in the piece. -/
theorem Column.base_or_mem (h : x.Column v c) : x.base.column? v = some c ∨ (v, c) ∈ x.columns := by
  rcases h with h | h | ⟨p, hp, h⟩ | ⟨-, h⟩
  · exact .inl h
  · exact .inr (mem_columns.2 ⟨x.first, List.mem_cons_self .., Placement.mem_columns_of_column? h⟩)
  · exact .inr (mem_columns.2 ⟨p, List.mem_cons_of_mem _ hp, h⟩)
  · exact .inr (mem_columns.2 ⟨x.first, List.mem_cons_self .., h⟩)

/-- Where a variable had a column before, all of its columns in the piece stand for it. -/
theorem column_of_mem (hb : (x.base.column? v).isSome) (h : (v, c) ∈ x.columns) : x.Column v c := by
  obtain ⟨p, hp, hv⟩ := mem_columns.1 h
  rcases List.mem_cons.1 hp with rfl | hp
  · exact .inr (.inr (.inr ⟨hb, hv⟩))
  · exact column_of_mem_rest hp hv

/-- The columns of a piece are under its aliases. -/
theorem tableAlias_mem {cat : Catalog} (hp : ∀ p ∈ x.placements, p.Of cat) (h : (v, c) ∈ x.columns) :
    c.tableAlias ∈ x.aliases := by
  obtain ⟨p, hpx, hv⟩ := mem_columns.1 h
  exact List.mem_map.2 ⟨p, hpx, ((hp p hpx).tableAlias_eq_of_mem_columns hv).symm⟩

/-- A tree of the tables of a piece has its aliases. -/
theorem aliases_of_tables {t : JoinTree} (h : t.tables = x.placements.map Placement.table) :
    t.aliases = x.aliases := by
  rw [JoinTree.aliases, h, List.map_map]
  rfl

/-- **What is grounded in a piece reads its tables** and those of the columns that were known before. -/
theorem Grounds.aliases_subset {cat : Catalog} (hp : ∀ p ∈ x.placements, p.Of cat) {as : List String}
    (hbase : ∀ {v c}, x.base.column? v = some c → c.tableAlias ∈ as) {e : Condition} (h : x.Grounds e) :
    ∀ a ∈ e.aliases, a ∈ as ++ x.aliases := by
  refine Grounded.aliases_subset h (fun v c hc => ?_) fun c a hc => ?_
  · exact List.mem_append.2 (hc.base_or_mem.imp hbase (tableAlias_mem hp))
  · obtain ⟨p, hpx, hs⟩ := hc
    exact List.mem_append_right _ (List.mem_map.2 ⟨p, hpx, ((hp p hpx).tableAlias_eq hs).symm⟩)

/-- More conditions enforce what fewer do. -/
theorem Enforced.mono {cs ds : List Condition} (h : x.Enforced cs)
    (hs : ∀ {e}, Condition.Has cs e → Condition.Has ds e) : x.Enforced ds where
  constants hc := hs (h.constants hc)
  columns hc hl := by
    obtain ⟨d, hd, hdc⟩ := h.columns hc hl
    exact ⟨d, hd, hdc.imp_right hs⟩
  filters hf := by
    obtain ⟨column?, e, he, hh, hcol⟩ := h.filters hf
    exact ⟨column?, e, he, hs hh, hcol⟩

/-- Every variable of the piece is bound after it. -/
theorem isSome_bindings_of_mem (h : (v, c) ∈ x.columns) : (x.bindings.column? v).isSome := by
  rw [bindings, Bindings.column?_bindAll, Option.isSome_or, Bool.or_eq_true, List.lookup_isSome_iff]
  exact .inr ⟨(v, c), h, by simp⟩

end Piece
end Compile
end TripleSql
