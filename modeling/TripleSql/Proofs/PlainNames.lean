/-
# Names that need no quotes

A catalog that is accepted has plain names alone, and so has every statement over it (`Session.build_plain`):

| name | where it comes from |
| --- | --- |
| table | a predicate of the catalog |
| alias | a table of the catalog, alone or with `_` and a decimal number behind it |
| column | the subject column or the object column of the catalog |

So no name is quoted in the text of a statement, nor would any be in a teardown, which quotes none. What is quoted in a
text are its literals. The text is read as SQL reads it: a single quote starts a literal or ends it, and two of them
inside a literal end it and start it again. What is then read outside of literals holds no double quote.
-/

import TripleSql.Proofs.AliasUses
import TripleSql.Proofs.Numbering
import TripleSql.Proofs.StatementText
import TripleSql.Proofs.Teardown

namespace TripleSql
namespace Sql

/-- The text outside of literals, if every literal ends. The text starts inside of one or outside. -/
def outside? (inside : Bool) : List Char → Option (List Char)
  | [] => if inside then none else some []
  | c :: cs =>
    if c = '\'' then outside? (!inside) cs
    else if inside then outside? true cs
    else (outside? false cs).map (c :: ·)

/-- The text holds neither single nor double quotes. -/
def isBare (s : String) : Bool := s.toList.all fun c => c != '\'' && c != '"'

/-- Read from outside of literals, the text ends outside of them and shows no double quote, whatever follows it. -/
def Unquoted (s : String) : Prop :=
  ∃ out, '"' ∉ out ∧ ∀ rest, outside? false (s.toList ++ rest) = (outside? false rest).map (out ++ ·)

namespace Unquoted

variable {s t : String}

/-- What is unquoted ends all of its literals and shows no double quote outside of them. -/
theorem outside?_eq (h : Unquoted s) : ∃ out, outside? false s.toList = some out ∧ '"' ∉ out := by
  obtain ⟨out, hout, hs⟩ := h
  refine ⟨out, ?_, hout⟩
  have hnil := hs []
  rw [List.append_nil] at hnil
  rw [hnil]
  exact congrArg some (List.append_nil out)

/-- Unquoted texts one after the other are unquoted: each of them starts and ends outside of literals. -/
theorem append (hs : Unquoted s) (ht : Unquoted t) : Unquoted (s ++ t) := by
  obtain ⟨out, hout, hs⟩ := hs
  obtain ⟨out', hout', ht⟩ := ht
  refine ⟨out ++ out', fun hmem => (List.mem_append.1 hmem).elim hout hout', fun rest => ?_⟩
  rw [String.toList_append, List.append_assoc, hs, ht, Option.map_map]
  exact congrArg (Option.map · _) (funext fun l => (List.append_assoc ..).symm)

/-- A text without quotes is read as it is. -/
theorem of_isBare (h : isBare s = true) : Unquoted s := by
  have hne : ∀ c ∈ s.toList, c ≠ '\'' ∧ c ≠ '"' := by simpa [isBare] using h
  refine ⟨s.toList, fun hmem => (hne _ hmem).2 rfl, fun rest => ?_⟩
  generalize s.toList = cs at hne ⊢
  induction cs with
  | nil => exact Option.map_id'.symm
  | cons c cs ih =>
    obtain ⟨hc, hcs⟩ := List.forall_mem_cons.1 hne
    rw [List.cons_append, outside?, if_neg hc.1, if_neg Bool.false_ne_true, ih hcs, Option.map_map]
    rfl

/-- Unquoted texts with an unquoted one between them are unquoted. -/
theorem intercalate {sep : String} (hsep : Unquoted sep) {ts : List String} (h : ∀ t ∈ ts, Unquoted t) :
    Unquoted (sep.intercalate ts) := by
  induction ts with
  | nil => exact of_isBare (s := "") (by decide)
  | cons t ts ih =>
    obtain ⟨ht, hts⟩ := List.forall_mem_cons.1 h
    cases ts with
    | nil => rwa [String.intercalate_singleton]
    | cons u us =>
      rw [String.intercalate_cons_cons]
      exact (ht.append hsep).append (ih hts)

end Unquoted

/-- A literal is read up to its closing quote: the quotes inside it come in pairs. -/
theorem outside?_doubled (cs rest : List Char) :
    outside? true (doubled '\'' cs ++ '\'' :: rest) = outside? false rest := by
  induction cs with
  | nil => rfl
  | cons c cs ih =>
    by_cases hc : c = '\''
    · rw [doubled, if_pos hc]
      exact ih
    · rw [doubled, if_neg hc, List.cons_append, outside?, if_neg hc, if_pos rfl]
      exact ih

/-- **Literals end where they are written to end,** whatever value they have. -/
theorem unquoted_quoteLiteral (value : String) : Unquoted (quoteLiteral value) := by
  refine ⟨[], List.not_mem_nil, fun rest => ?_⟩
  rw [quoteLiteral, toList_quoted_append]
  exact (outside?_doubled _ rest).trans Option.map_id'.symm

/-- A plain name is written without quotes. -/
theorem unquoted_quoteName {name : String} (h : isPlain name = true) : Unquoted (quoteName name) := by
  rw [quoteName_of_isPlain h]
  refine .of_isBare (List.all_eq_true.2 fun c hc => ?_)
  have hcontinues := List.all_eq_true.1 (all_continuesName h) c hc
  rw [Bool.and_eq_true, bne_iff_ne, bne_iff_ne]
  constructor <;>
    · rintro rfl
      exact absurd hcontinues (by decide)

/-- The names of a column. -/
def Column.names (c : Column) : List String := [c.tableAlias, c.name]

/-- The names of a table. -/
def Table.names (t : Table) : List String := [t.name, t.aliasName]

/-- The column of an operand, if it is one. -/
def Operand.column? : Operand → Option Column
  | .column c => some c
  | .literal _ => none

/-- The columns that a condition reads, left side first. -/
def Condition.columns (e : Condition) : List Column := [e.left, e.right].filterMap Operand.column?

/-- All columns of a statement: those of its rows, of its conditions at all depths and of its ordering. -/
def Statement.columns (st : Statement) : List Column :=
  st.select ++ (st.tables.conditions ++ st.conditions).flatMap Condition.columns ++
    st.ordering.toList.map OrderBy.column

/-- All names of a statement: those of its tables at all depths and of its columns. -/
def Statement.names (st : Statement) : List String :=
  st.tables.tables.flatMap Table.names ++ st.columns.flatMap Column.names

/-- All of the names are plain. -/
def ArePlain (names : List String) : Prop := ∀ n ∈ names, isPlain n = true

/-- A column of plain names is written without quotes. -/
theorem Column.unquoted_text {c : Column} (h : ArePlain c.names) : Unquoted c.text := by
  have halias := h c.tableAlias (by simp [names])
  have hname := h c.name (by simp [names])
  exact ((unquoted_quoteName halias).append (.of_isBare (by decide))).append (unquoted_quoteName hname)

/-- A table of plain names is written without quotes, with or without its alias. -/
theorem Table.unquoted_text {t : Table} (h : ArePlain t.names) : Unquoted t.text := by
  have hname := unquoted_quoteName (h t.name (by simp [names]))
  have halias := unquoted_quoteName (h t.aliasName (by simp [names]))
  unfold text declared
  split
  · exact hname
  · exact (hname.append (.of_isBare (by decide))).append halias

/-- An operand is written without double quotes if it is a literal or its names are plain. -/
theorem Operand.unquoted_text {o : Operand} (h : ∀ c ∈ o.column?, ArePlain c.names) : Unquoted o.text := by
  cases o with
  | column c => exact Column.unquoted_text (h c rfl)
  | literal v => exact unquoted_quoteLiteral v

namespace Condition

/-- The condition has a supported operator, and the names of its columns are plain. -/
def IsPlain (e : Condition) : Prop := e.IsSupported ∧ ∀ c ∈ e.columns, ArePlain c.names

/-- A condition on columns of plain names is written without double quotes. -/
theorem unquoted_text {e : Condition} (h : e.IsPlain) : Unquoted e.text := by
  have operators : ∀ o ∈ Pattern.Comparison.all.map Pattern.Comparison.text, isBare o = true := by decide
  have hleft : Unquoted e.left.text :=
    Operand.unquoted_text fun c hc => h.2 c (List.mem_filterMap.2 ⟨e.left, by simp, hc⟩)
  have hright : Unquoted e.right.text :=
    Operand.unquoted_text fun c hc => h.2 c (List.mem_filterMap.2 ⟨e.right, by simp, hc⟩)
  have hblank : Unquoted " " := .of_isBare (by decide)
  exact ((((hleft.append hblank).append (.of_isBare (operators _ h.1))).append hblank).append hright)

/-- A word between two conditions has no quotes. -/
theorem unquoted_conjunction {cs : List Condition} (h : ∀ e ∈ cs, e.IsPlain) : Unquoted (conjunction cs) :=
  Unquoted.intercalate (.of_isBare (by decide)) (List.forall_mem_map.2 fun e he => unquoted_text (h e he))

end Condition

/-- The words of a join have no quotes. -/
theorem JoinKind.unquoted_text {source : String} (h : Unquoted source) (kind : JoinKind) {on : List Condition}
    (hon : ∀ e ∈ on, e.IsPlain) : Unquoted (kind.text source on) := by
  have written : ∀ {words : String}, isBare words = true →
      Unquoted (words ++ source ++ " ON (" ++ Condition.conjunction on ++ ")") := fun hwords =>
    ((((Unquoted.of_isBare hwords).append h).append (.of_isBare (by decide))).append
      (Condition.unquoted_conjunction hon)).append (.of_isBare (by decide))
  unfold text
  split
  · exact (Unquoted.of_isBare (by decide)).append h
  · exact written (by decide)
  · exact written (by decide)

mutual

/-- A source of plain names is written without double quotes, by induction on how deep it is nested. -/
theorem Source.unquoted_text : (s : Source) → (∀ t ∈ s.tables, ArePlain t.names) →
    (∀ e ∈ s.conditions, e.IsPlain) → Unquoted s.text
  | .table t, ht, _ => Table.unquoted_text (ht t (List.mem_singleton_self t))
  | .nested (.base s), ht, he => Source.unquoted_text s ht he
  | .nested (.join l kind r on), ht, he => by
    have htree := JoinTree.unquoted_text (.join l kind r on) ht he
    exact ((Unquoted.of_isBare (by decide)).append htree).append (.of_isBare (by decide))

/-- **The text of a tree shows no quotes but those of literals,** if its names are plain. -/
theorem JoinTree.unquoted_text : (t : JoinTree) → (∀ u ∈ t.tables, ArePlain u.names) →
    (∀ e ∈ t.conditions, e.IsPlain) → Unquoted t.text
  | .base s, ht, he => Source.unquoted_text s ht he
  | .join l kind r on, ht, he => by
    simp only [JoinTree.tables, JoinTree.conditions, List.forall_mem_append] at ht he
    have hleft := JoinTree.unquoted_text l ht.1 he.1.1
    have hright := Source.unquoted_text r ht.2 he.1.2
    exact (hleft.append (.of_isBare (by decide))).append (JoinKind.unquoted_text hright kind he.2)

end

/-- An ordering by a column of plain names is written without quotes. -/
theorem OrderBy.unquoted_text {o : OrderBy} (h : ArePlain o.column.names) : Unquoted o.text := by
  have hdirection : Unquoted o.direction.text := by
    cases o.direction <;> exact .of_isBare (by decide)
  have hcolumn := (Unquoted.of_isBare (s := "ORDER BY ") (by decide)).append (Column.unquoted_text h)
  exact (hcolumn.append (.of_isBare (by decide))).append hdirection

/-- **A statement of plain names quotes its literals alone.** -/
theorem Statement.unquoted_text {st : Statement} (hnames : ArePlain st.names) (hsupported : st.IsSupported) :
    Unquoted st.text := by
  have htables : ∀ t ∈ st.tables.tables, ArePlain t.names := fun t ht n hn =>
    hnames n (List.mem_append_left _ (List.mem_flatMap.2 ⟨t, ht, hn⟩))
  have hcolumns : ∀ c ∈ st.columns, ArePlain c.names := fun c hc n hn =>
    hnames n (List.mem_append_right _ (List.mem_flatMap.2 ⟨c, hc, hn⟩))
  simp only [columns, List.forall_mem_append, List.forall_mem_map] at hcolumns
  obtain ⟨⟨hselect, hread⟩, hordering⟩ := hcolumns
  have hplain : ∀ e ∈ st.tables.conditions ++ st.conditions, e.IsPlain := fun e he =>
    ⟨hsupported e he, fun c hc => hread c (List.mem_flatMap.2 ⟨e, he, hc⟩)⟩
  rw [List.forall_mem_append] at hplain
  have hlist : Unquoted (", ".intercalate (st.select.map Column.text)) :=
    .intercalate (.of_isBare (by decide)) (List.forall_mem_map.2 fun c hc => Column.unquoted_text (hselect c hc))
  have hfrom := JoinTree.unquoted_text st.tables htables hplain.1
  refine Unquoted.append (Unquoted.append ?_ ?_) ?_
  · exact (((Unquoted.of_isBare (by decide)).append hlist).append (.of_isBare (by decide))).append hfrom
  · split
    · exact .of_isBare (by decide)
    · exact (Unquoted.of_isBare (by decide)).append (Condition.unquoted_conjunction hplain.2)
  · split
    · exact .of_isBare (by decide)
    · next o ho =>
      have horder := hordering o (by rw [ho]; exact List.mem_singleton_self o)
      exact (Unquoted.of_isBare (by decide)).append (OrderBy.unquoted_text horder)

end Sql

namespace Catalog

/-- **The aliases of a plain name are plain,** whatever their number. -/
theorem isPlain_numbered {t : String} (h : Sql.isPlain t = true) (k : Nat) : Sql.isPlain (numbered t k) = true := by
  unfold numbered
  split
  · exact h
  · obtain ⟨c, cs, ht, hc, hcs⟩ := Sql.exists_of_isPlain h
    have hdigits : ∀ d ∈ k.repr.toList, Sql.continuesName d = true := fun d hd => by
      have hdigit := List.all_eq_true.1 (all_isDigit_repr k) d hd
      simp [Sql.continuesName, Char.isAlphanum, hdigit]
    have htail : (cs ++ '_' :: k.repr.toList).all Sql.continuesName = true := by
      rw [List.all_append, hcs, List.all_cons, List.all_eq_true.2 hdigits]
      rfl
    have htext : (t ++ "_" ++ k.repr).toList = c :: (cs ++ '_' :: k.repr.toList) := by
      rw [String.toList_append, String.toList_append, ht, List.append_assoc]
      rfl
    rw [Sql.isPlain, htext]
    exact Bool.and_eq_true_iff.2 ⟨hc, htail⟩

/-- What is found in a catalog is one of its tables. -/
theorem mem_tables_of_get? {c : Catalog} {p t : String} (h : c.predicates.get? p = some t) :
    t ∈ c.predicates.tables := List.mem_map.2 ⟨(p, t), mem_of_lookup h, rfl⟩

/-- The tables that a catalog names are named plainly. -/
theorem IsWellFormed.isPlain_of_names {c : Catalog} (h : c.IsWellFormed) {t : String} (ht : c.Names t) :
    Sql.isPlain t = true := by
  rcases ht with ht | ht | ht
  · exact h.isPlain_tables t ht
  · exact h.isPlain_soTable t ht
  · exact h.isPlain_mapTable t ht

end Catalog

namespace Compile

open Pattern Sql

/-- A condition reads a column on its left or on its right side. -/
theorem mem_columns_condition {e : Condition} {c : Column} :
    c ∈ e.columns ↔ e.left = .column c ∨ e.right = .column c := by
  have hside : ∀ o : Operand, o.column? = some c ↔ o = .column c := fun o => by
    cases o <;> simp [Operand.column?]
  simp [Condition.columns, hside, eq_comm]

namespace Compilation

variable {cat : Catalog} {q : Query} {targets : List String} {ordering : Option (String × Direction)}
  {st : Statement} {req opt : List Member}

/-- The tables of a statement are those of its placements. -/
theorem tables_eq_map_table (h : Compilation cat q targets ordering st req opt) :
    st.tables.tables = (placementsOf (req ++ opt)).map Placement.table := by
  rw [JoinTree.tables_parts, h.parts_eq, List.flatMap_map, placementsOf, List.map_flatMap]
  refine List.flatMap_congr fun m hm => ?_
  obtain ⟨gp, -, hof⟩ := h.members.exists_of_mem hm
  exact hof.tables

/-- **A statement reads no columns but those that its placements stand on.** -/
theorem exists_slot_of_mem_columns (h : Compilation cat q targets ordering st req opt) {c : Column}
    (hc : c ∈ st.columns) : ∃ p ∈ placementsOf (req ++ opt), ∃ n, (n, c) ∈ p.slots := by
  have of_member : ∀ {m : Member} {v : String}, m ∈ req ++ opt → (v, c) ∈ m.piece.columns →
      ∃ p ∈ placementsOf (req ++ opt), ∃ n, (n, c) ∈ p.slots := fun hm hv => by
    obtain ⟨p, hp, hv⟩ := Piece.mem_columns.1 hv
    exact ⟨p, mem_placementsOf.2 ⟨_, hm, hp⟩, _, Placement.mem_columns.1 hv⟩
  have of_lookup : ∀ {v : String}, (columnsOf (req ++ opt)).lookup v = some c →
      ∃ p ∈ placementsOf (req ++ opt), ∃ n, (n, c) ∈ p.slots := fun hv => by
    obtain ⟨m, hm, hv⟩ := List.mem_flatMap.1 (mem_of_lookup hv)
    exact of_member hm hv
  simp only [Statement.columns, List.mem_append, List.mem_map, Option.mem_toList] at hc
  rcases hc with (hc | hc) | ⟨o, ho, rfl⟩
  · obtain ⟨v, -, hv⟩ := exists_left_of_forall₂ h.select hc
    exact of_lookup hv
  · obtain ⟨e, he, hce⟩ := List.mem_flatMap.1 hc
    obtain ⟨m, hm, hground⟩ := h.exists_grounds (List.mem_append.2 (by simpa using he))
    rcases hground.reads (mem_columns_condition.1 hce) with ⟨v, hv⟩ | ⟨x, p, hp, hs⟩
    · rcases hv.base_or_mem with hbase | hown
      · obtain ⟨n, hn, hl⟩ := h.exists_lookup_of_base hm hbase
        exact of_member (List.mem_append_left _ hn) (mem_of_lookup hl)
      · exact of_member hm hown
    · exact ⟨p, mem_placementsOf.2 ⟨m, hm, hp⟩, _, hs⟩
  · obtain ⟨v, hv⟩ := h.ordering o ho
    exact of_lookup hv

/-- **All names of a statement are plain,** if those of the catalog and the aliases are. -/
theorem arePlain_names (h : Compilation cat q targets ordering st req opt) (hcat : cat.IsWellFormed)
    (haliases : ArePlain st.tables.aliases) : ArePlain st.names := by
  have hplaced : ∀ p ∈ placementsOf (req ++ opt), p.Of cat ∧ isPlain p.aliasName = true := fun p hp => by
    obtain ⟨m, hm, hpm⟩ := mem_placementsOf.1 hp
    refine ⟨h.members.placed hm p hpm, haliases _ ?_⟩
    rw [JoinTree.aliases, h.tables_eq_map_table, List.map_map]
    exact List.mem_map_of_mem hp
  intro n hn
  rcases List.mem_append.1 hn with hn | hn
  · rw [h.tables_eq_map_table, List.flatMap_map] at hn
    obtain ⟨p, hp, hn⟩ := List.mem_flatMap.1 hn
    obtain ⟨hof, halias⟩ := hplaced p hp
    obtain ⟨predicate, -, htable⟩ := hof.table
    have hname := hcat.isPlain_tables _ (Catalog.mem_tables_of_get? htable)
    rcases List.mem_pair.1 hn with rfl | rfl
    · exact hname
    · exact halias
  · obtain ⟨c, hc, hn⟩ := List.mem_flatMap.1 hn
    obtain ⟨p, hp, node, hs⟩ := h.exists_slot_of_mem_columns hc
    obtain ⟨hof, halias⟩ := hplaced p hp
    rcases List.mem_pair.1 hn with rfl | rfl
    · exact hof.tableAlias_eq hs ▸ halias
    · rcases Placement.mem_slots.1 hs with hs | hs
      · rw [(Prod.mk.inj hs).2, hof.subject]
        exact hcat.isPlain_subjectColumn
      · rw [(Prod.mk.inj hs).2, hof.object]
        exact hcat.isPlain_objectColumn

end Compilation

/-- **Nothing over an accepted catalog needs quotes but literals.** All names of a statement that compiles are plain, so
each is written as it is, and its text read outside of literals holds no double quote; every statement of the teardown
drops one table of the catalog by its plain name. -/
theorem Session.build_plain {c d : Catalog} (haccept : c.accept = .ok d) :
    (∀ (S : Session) (st : Statement), S.catalog = d → S.build.1 = .ok st →
      (∀ n ∈ st.names, isPlain n = true ∧ quoteName n = n) ∧
        ∃ out, outside? false st.text.toList = some out ∧ '"' ∉ out) ∧
      ∀ s ∈ d.teardown, ∃ t, d.Names t ∧ isPlain t = true ∧ s = "DROP TABLE " ++ t := by
  obtain ⟨hcat, rfl⟩ := Catalog.accept_eq_ok.1 haccept
  constructor
  · rintro S st rfl hbuild
    obtain ⟨-, scope, hs⟩ := Session.build_eq_ok hbuild
    obtain ⟨req, opt, hc⟩ := statement_eq_ok hs
    have haliases : ArePlain st.tables.aliases := fun b hb => by
      obtain ⟨t, ht, k, rfl⟩ := Session.exists_numbered_of_mem_aliases hbuild hb
      exact Catalog.isPlain_numbered (hcat.isPlain_tables t ht) k
    have hnames := hc.arePlain_names hcat haliases
    exact ⟨fun n hn => ⟨hnames n hn, quoteName_of_isPlain (hnames n hn)⟩,
      (Statement.unquoted_text hnames hc.isSupported).outside?_eq⟩
  · intro s hs
    obtain ⟨t, ht, rfl⟩ := Catalog.mem_teardown.1 hs
    exact ⟨t, ht, hcat.isPlain_of_names ht, rfl⟩

/-- No name in the statement of `friends` is quoted, and its text has no double quote outside of literals. -/
theorem Session.friends_plain : friends.catalog.accept = .ok friends.catalog ∧ ∃ st, friends.build.1 = .ok st ∧
    (∀ n ∈ st.names, isPlain n = true ∧ quoteName n = n) ∧
      ∃ out, outside? false st.text.toList = some out ∧ '"' ∉ out := by
  have haccept := Catalog.accept_of_check (c := friends.catalog) (by decide +kernel)
  obtain ⟨st, h⟩ := exists_build_friends
  exact ⟨haccept, st, h, (build_plain haccept).1 friends st rfl h⟩

end Compile
end TripleSql
