/-
# A statement is read back from its document

What each part of a statement is read from says which part it is, so nothing of it is lost:

| part | read back since |
| --- | --- |
| column, condition, table, ordering | its fields have different names |
| operand, source | the one key of its table says which of the two it is |
| join kind, direction | the two names are different |
| tree | its joins are the list of its steps, and every tree is made of its root and its joins |
| ordering that is missing | nothing stands for it, which no ordering is written as |

Sources and trees are nested in each other, and the reader follows them through the lists of joins. The induction is on
the tree; a tree is written with its last join at the end of the list, so a list is read back join by join from its end
(`readEachJoin_snoc`).
-/

import TripleSql.Proofs.PrintedDocuments
import TripleSql.Sql.Document
import TripleSql.Sql.Text

namespace TripleSql

namespace Sql

/-- The fields of a record are read back by a reader that knows them all. -/
theorem fieldsOf?_record {known : List String} {fields : List (String × Document)}
    (hknown : ∀ f ∈ fields, f.1 ∈ known) (hnodup : (fields.map (·.1)).Nodup) :
    fieldsOf? known (.record fields) = some fields :=
  Dialect.fields?_record .json hknown hnodup

/-- A column is read back: alias and name are different fields. -/
theorem Column.ofDocument?_toDocument (c : Column) : Column.ofDocument? c.toDocument = some c := by
  rw [ofDocument?, toDocument, fieldsOf?_record (by simp) (by simp)]
  rfl

/-- An operand is read back: its one key says whether it is a column or a literal. -/
theorem Operand.ofDocument?_toDocument (o : Operand) : Operand.ofDocument? o.toDocument = some o := by
  cases o with
  | column c =>
    change (Column.ofDocument? c.toDocument).map Operand.column = _
    rw [c.ofDocument?_toDocument, Option.map_some]
  | literal v => rfl

/-- A condition is read back, with any operator. -/
theorem Condition.ofDocument?_toDocument (c : Condition) : Condition.ofDocument? c.toDocument = some c := by
  rw [ofDocument?, toDocument, fieldsOf?_record (by simp) (by simp)]
  simp [needed?, Dialect.field?, List.lookup_cons, Operand.ofDocument?_toDocument, Document.text?, Document.ofText]

/-- A table is read back, also if its alias is its name. -/
theorem Table.ofDocument?_toDocument (t : Table) : Table.ofDocument? t.toDocument = some t := by
  rw [ofDocument?, toDocument, fieldsOf?_record (by simp) (by simp)]
  rfl

/-- The two kinds of joins have two names. -/
theorem JoinKind.ofDocument?_toDocument (k : JoinKind) : JoinKind.ofDocument? k.toDocument = some k := by
  cases k <;> rfl

/-- The two directions have two names. -/
theorem Direction.ofDocument?_toDocument (d : Direction) : Direction.ofDocument? d.toDocument = some d := by
  cases d <;> rfl

/-- An ordering is read back from its two fields. -/
theorem OrderBy.ofDocument?_toDocument (o : OrderBy) : OrderBy.ofDocument? o.toDocument = some o := by
  rw [ofDocument?, toDocument, fieldsOf?_record (by simp) (by simp)]
  simp [needed?, Dialect.field?, List.lookup_cons, Column.ofDocument?_toDocument, Direction.ofDocument?_toDocument]

/-- The columns of `SELECT` are read back one by one. -/
theorem columnsOf?_map (cs : List Column) : columnsOf? (.list (cs.map Column.toDocument)) = some cs :=
  mapM_map_eq_some Column.ofDocument?_toDocument cs

/-- Conditions are read back one by one. -/
theorem conditionsOf?_map (cs : List Condition) : conditionsOf? (.list (cs.map Condition.toDocument)) = some cs :=
  mapM_map_eq_some Condition.ofDocument?_toDocument cs

/-- Where no ordering was written, none is read. -/
theorem orderingOf?_getD (o : Option OrderBy) : orderingOf? ((o.map OrderBy.toDocument).getD .null) = some o := by
  cases o with
  | none => rfl
  | some o =>
    change (OrderBy.ofDocument? o.toDocument).map some = _
    rw [o.ofDocument?_toDocument, Option.map_some]

/-- A join is read back if its source is. -/
theorem readJoin_joinDocument {s : Source} (h : readSource s.toDocument = some s) (k : JoinKind) (on : List Condition) :
    readJoin (joinDocument k s.toDocument on) = some (k, s, on) := by
  simp [joinDocument, Document.record, readJoin, readJoinEntries, Document.text?, Document.ofText, fill?, h,
    JoinKind.ofDocument?_toDocument, conditionsOf?_map]

/-- The joins of a tree are read one after the other, so one more is read behind those before it. -/
theorem readEachJoin_snoc {ds : List Document} {js : List (JoinKind × Source × List Condition)} {d : Document}
    {j : JoinKind × Source × List Condition} (hds : readEachJoin ds = some js) (hd : readJoin d = some j) :
    readEachJoin (ds ++ [d]) = some (js ++ [j]) := by
  induction ds generalizing js with
  | nil =>
    obtain rfl := Option.some.inj hds
    simp [readEachJoin, hd]
  | cons e ds ih =>
    rw [readEachJoin] at hds
    simp only [Option.bind_eq_bind, Option.bind_eq_some_iff, Option.pure_def, Option.some.injEq] at hds
    obtain ⟨i, hi, is, his, rfl⟩ := hds
    simp [readEachJoin, hi, ih his]

/-- A tree is read back if its root and its joins are. -/
theorem readTree_toDocument {t : JoinTree} (hroot : readSource t.rootDocument = some t.root)
    (hjoins : readEachJoin t.joinDocuments = some t.joins) : readTree t.toDocument = some t := by
  simp [JoinTree.toDocument, Document.record, readTree, readTreeEntries, readJoins, Document.text?, Document.ofText,
    fill?, hroot, hjoins, JoinTree.ofJoins_root_joins]

mutual

/-- **A source is read back from its document,** however deep its trees are nested. -/
theorem readSource_toDocument : (s : Source) → readSource s.toDocument = some s
  | .table t => by
    change (Table.ofDocument? t.toDocument).map Source.table = _
    rw [t.ofDocument?_toDocument, Option.map_some]
  | .nested t => by
    change (readTree t.toDocument).map Source.nested = _
    rw [readTree_toDocument (readSource_rootDocument t) (readEachJoin_joinDocuments t), Option.map_some]

/-- The source that a tree starts with is read back from its first field. -/
theorem readSource_rootDocument : (t : JoinTree) → readSource t.rootDocument = some t.root
  | .base s => readSource_toDocument s
  | .join l _ _ _ => readSource_rootDocument l

/-- The joins of a tree are read back from the list of its steps. -/
theorem readEachJoin_joinDocuments : (t : JoinTree) → readEachJoin t.joinDocuments = some t.joins
  | .base _ => rfl
  | .join l k r on =>
    readEachJoin_snoc (readEachJoin_joinDocuments l) (readJoin_joinDocument (readSource_toDocument r) k on)

end

/-- **A tree is read back,** however deep other trees are nested in it. -/
theorem JoinTree.ofDocument?_toDocument (t : JoinTree) : JoinTree.ofDocument? t.toDocument = some t :=
  readTree_toDocument (readSource_rootDocument t) (readEachJoin_joinDocuments t)

/-- **A statement is read back from its document.** -/
theorem Statement.ofDocument?_toDocument (s : Statement) : Statement.ofDocument? s.toDocument = some s := by
  rw [ofDocument?, toDocument, fieldsOf?_record (by simp) (by simp)]
  simp [needed?, Dialect.field?, List.lookup_cons, columnsOf?_map, conditionsOf?_map, JoinTree.ofDocument?_toDocument,
    orderingOf?_getD]

section Composed

/-- The document of a column has no numbers. -/
theorem Column.composed_toDocument (c : Column) : c.toDocument.Composed :=
  .record (by simp [Document.Composed.text])

/-- The document of an operand has no numbers: a literal is a text. -/
theorem Operand.composed_toDocument (o : Operand) : o.toDocument.Composed := by
  cases o with
  | column c => exact .record (by simp [c.composed_toDocument])
  | literal v => exact .record (by simp [Document.Composed.text])

/-- The document of a condition has no numbers. -/
theorem Condition.composed_toDocument (c : Condition) : c.toDocument.Composed :=
  .record (by simp [Document.Composed.text, Operand.composed_toDocument])

/-- The document of a table has no numbers. -/
theorem Table.composed_toDocument (t : Table) : t.toDocument.Composed :=
  .record (by simp [Document.Composed.text])

/-- The document of a kind of join is its name. -/
theorem JoinKind.composed_toDocument (k : JoinKind) : k.toDocument.Composed := by
  cases k <;> exact .text _

/-- The document of a join has no numbers if that of its source has none. -/
theorem composed_joinDocument {d : Document} (hd : d.Composed) (k : JoinKind) (on : List Condition) :
    (joinDocument k d on).Composed :=
  .record (by simp [hd, k.composed_toDocument, Document.Composed.map Condition.composed_toDocument])

mutual

/-- The document of a source has no numbers, by induction on how deep it is nested. -/
theorem Source.composed_toDocument : (s : Source) → s.toDocument.Composed
  | .table t => .record (by simp [t.composed_toDocument])
  | .nested t => .record (by
    have htree : (Document.record [("base", t.rootDocument), ("steps", .list t.joinDocuments)]).Composed :=
      .record (by simp [t.composed_rootDocument, Document.Composed.list t.composed_joinDocuments])
    simp [htree])

/-- The document of what a tree starts with has no numbers. -/
theorem JoinTree.composed_rootDocument : (t : JoinTree) → t.rootDocument.Composed
  | .base s => s.composed_toDocument
  | .join l _ _ _ => l.composed_rootDocument

/-- None of the documents of the joins of a tree has a number. -/
theorem JoinTree.composed_joinDocuments : (t : JoinTree) → ∀ d ∈ t.joinDocuments, d.Composed
  | .base _ => by simp [JoinTree.joinDocuments]
  | .join l k r on => by
    intro d hd
    rcases List.mem_append.1 hd with hd | hd
    · exact l.composed_joinDocuments d hd
    · rw [List.mem_singleton.1 hd]
      exact composed_joinDocument r.composed_toDocument k on

end

/-- The document of a tree has no numbers. -/
theorem JoinTree.composed_toDocument (t : JoinTree) : t.toDocument.Composed :=
  .record (by simp [t.composed_rootDocument, Document.Composed.list t.composed_joinDocuments])

/-- The document of an ordering has no numbers. -/
theorem OrderBy.composed_toDocument (o : OrderBy) : o.toDocument.Composed := by
  have hdirection : o.direction.toDocument.Composed := by cases o.direction <;> exact .text _
  exact .record (by simp [o.column.composed_toDocument, hdirection])

/-- The document of a statement has no numbers, so both of its texts are read as the document. -/
theorem Statement.composed_toDocument (s : Statement) : s.toDocument.Composed := by
  have hordering : ((s.ordering.map OrderBy.toDocument).getD .null).Composed := by
    cases s.ordering with
    | none => exact .null
    | some o => exact o.composed_toDocument
  exact .record (by
    simp [hordering, s.tables.composed_toDocument, Document.Composed.map Column.composed_toDocument,
      Document.Composed.map Condition.composed_toDocument])

end Composed

/-- **A plan loses nothing.** The document of a statement is read back as the statement, however deep its trees are
nested and whatever its names and literals are; so is the text of the document, on one line or with its parts on lines of
their own, and what is read has the text in SQL that the statement has. -/
theorem Statement.read_print_toDocument (s : Statement) :
    Statement.ofDocument? s.toDocument = some s ∧
      ∀ json ∈ [s.toDocument.print, s.toDocument.printLines 0],
        (Document.Json.parse? json).bind Statement.ofDocument? = some s ∧
          ((Document.Json.parse? json).bind Statement.ofDocument?).map Statement.text = some s.text := by
  have hread : ∀ json ∈ [s.toDocument.print, s.toDocument.printLines 0],
      (Document.Json.parse? json).bind Statement.ofDocument? = some s := by
    intro json hjson
    have hparse := s.composed_toDocument.parse?_eq hjson
    rw [hparse, Option.bind_some, s.ofDocument?_toDocument]
  refine ⟨s.ofDocument?_toDocument, fun json hjson => ⟨hread json hjson, ?_⟩⟩
  rw [hread json hjson, Option.map_some]

end Sql
end TripleSql
