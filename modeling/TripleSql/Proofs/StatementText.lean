/-
# The text of a statement tells the statement

Two statements with one text are the same but for parentheses that are not written (`Statement.text_eq_iff`): a nested
tree without joins is written like the source that it starts with, so a statement is compared with each such tree
replaced by that source (`Statement.flatten`). Nothing is asked of names and literals. Of operators it is asked that
they are among those that filters compare by, which holds of every statement that compiles
(`Session.build_text_eq_iff`).

The text is read from left to right. What follows a part tells where it ends:

| part | what may follow |
| --- | --- |
| table | nothing, `)`, or a blank and a word other than `AS` |
| join tree, conditions of a clause | nothing, `)`, `WHERE`, `ORDER BY` |
| columns of `SELECT` | a blank |

A join starts with `CROSS`, `JOIN` or `LEFT` and so neither follows a tree nor belongs to a table.
-/

import TripleSql.Proofs.Readable
import TripleSql.Proofs.Scoping

namespace TripleSql
namespace Sql

mutual

/-- The source without parentheses that its text does not show. -/
def Source.flatten : Source → Source
  | .table t => .table t
  | .nested tree =>
    match tree with
    | .base s => s.flatten
    | .join l kind r on => .nested (.join l.flatten kind r.flatten on)

/-- The tree, each nested tree without joins in it replaced by the source that it starts with. -/
def JoinTree.flatten : JoinTree → JoinTree
  | .base s => .base s.flatten
  | .join l kind r on => .join l.flatten kind r.flatten on

end

/-- The statement with a flattened join tree. -/
def Statement.flatten (s : Statement) : Statement := { s with tables := s.tables.flatten }

/-- Every condition of the statement has an operator that filters compare by. -/
def Statement.IsSupported (s : Statement) : Prop := ∀ c ∈ s.tables.conditions ++ s.conditions, c.IsSupported

mutual

/-- Parentheses that are not written do not show in the text of a source. -/
theorem Source.text_flatten : (s : Source) → s.flatten.text = s.text
  | .table _ => rfl
  | .nested (.base s) => Source.text_flatten s
  | .nested (.join l kind r on) => by
    rw [Source.flatten, Source.text, Source.text, JoinTree.text, JoinTree.text, JoinTree.text_flatten l,
      Source.text_flatten r]

/-- **Flattening does not show in the text.** -/
theorem JoinTree.text_flatten : (t : JoinTree) → t.flatten.text = t.text
  | .base s => Source.text_flatten s
  | .join l kind r on => by
    rw [JoinTree.flatten, JoinTree.text, JoinTree.text, JoinTree.text_flatten l, Source.text_flatten r]

end

/-- What may follow a table: nothing, a closing parenthesis, or a blank and a word other than `AS`. -/
def endsTable : List Char → Bool
  | [] => true
  | ')' :: _ => true
  | ' ' :: c :: _ => c != 'A'
  | _ => false

/-- What may follow a join tree or the conditions of a clause: nothing, a closing parenthesis, `WHERE` or `ORDER BY`. -/
def endsClause : List Char → Bool
  | [] => true
  | ')' :: _ => true
  | ' ' :: c :: _ => c == 'W' || c == 'O'
  | _ => false

/-- What may follow a clause may follow a table. -/
theorem endsTable_of_endsClause {r : List Char} (h : endsClause r = true) : endsTable r = true := by
  unfold endsClause at h
  split at h
  · rfl
  · rfl
  · next c _ =>
    simp only [Bool.or_eq_true, beq_iff_eq] at h
    rcases h with rfl | rfl <;> rfl
  · cases h

/-- What may follow a table may follow a name. -/
theorem endsWord_of_endsTable {r : List Char} (h : endsTable r = true) : endsWord r = true := by
  unfold endsTable at h
  split at h
  · rfl
  · rfl
  · rfl
  · cases h

namespace Table

/-- What stands in the text of a table behind its name. -/
def suffix (t : Table) : List Char :=
  if t.name = t.aliasName then [] else ' ' :: 'A' :: 'S' :: ' ' :: (quoteName t.aliasName).toList

/-- The text of a table is its name and, if it has another alias, that alias behind `AS`. -/
theorem toList_text (t : Table) : t.text.toList = (quoteName t.name).toList ++ t.suffix := by
  unfold Table.text declared suffix
  split
  · rw [List.append_nil]
  · simp only [String.toList_append, String.reduceToList, List.append_assoc, List.cons_append, List.nil_append]

/-- The name of a table ends where its alias starts. -/
theorem endsWord_suffix_append (t : Table) {r : List Char} (hr : endsTable r = true) :
    endsWord (t.suffix ++ r) = true := by
  unfold suffix
  split
  · exact endsWord_of_endsTable hr
  · rfl

/-- **Tables are readable:** an alias stands behind `AS`, and is the name where it does not stand. -/
theorem text_readable : Readable Table.text (fun _ => True) endsTable := by
  rintro ⟨n, a⟩ ⟨m, b⟩ r r' _ _ h hr hr'
  have noAlias : ∀ {r l : List Char}, endsTable r = true → r ≠ ' ' :: 'A' :: l := by
    rintro r l hr rfl
    cases hr
  rw [toList_text, toList_text, List.append_assoc, List.append_assoc] at h
  obtain ⟨rfl, h₁⟩ := quoteName_readable trivial trivial h (endsWord_suffix_append _ hr) (endsWord_suffix_append _ hr')
  unfold suffix at h₁
  split at h₁ <;> split at h₁
  · next hn hm => exact ⟨congrArg (Table.mk n) (hn.symm.trans hm), h₁⟩
  · exact (noAlias hr h₁).elim
  · exact (noAlias hr' h₁.symm).elim
  · simp only [List.cons_append, List.cons.injEq, true_and] at h₁
    obtain ⟨rfl, h₂⟩ := quoteName_readable trivial trivial h₁ (endsWord_of_endsTable hr) (endsWord_of_endsTable hr')
    exact ⟨rfl, h₂⟩

/-- A table does not start with a parenthesis. -/
theorem text_append_ne (t : Table) (r r' : List Char) : t.text.toList ++ r ≠ '(' :: r' := by
  obtain ⟨d, ds, hd, ho⟩ := exists_quoteName_eq_cons t.name
  rw [toList_text, hd]
  intro he
  rw [(List.cons.inj he).1] at ho
  exact absurd ho (by decide)

end Table

/-- A clause does not end before a letter or a quote. -/
theorem endsClause_cons {d : Char} (h : d ≠ ')') (h' : d ≠ ' ') (r : List Char) : endsClause (d :: r) = false := by
  unfold endsClause
  split <;> simp_all

/-- A condition starts with a name or a quote. -/
theorem Condition.endsClause_text_append (c : Condition) (r : List Char) : endsClause (c.text.toList ++ r) = false := by
  have start : ∃ d ds, c.left.text.toList = d :: ds ∧ d ≠ ')' ∧ d ≠ ' ' := by
    cases c.left with
    | column c =>
      obtain ⟨d, ds, hd, ho⟩ := c.exists_text_eq_cons
      refine ⟨d, ds, hd, ?_, ?_⟩ <;>
        · rintro rfl
          exact absurd ho (by decide)
    | literal v => exact ⟨'\'', _, String.toList_ofList, by decide, by decide⟩
  obtain ⟨d, ds, hd, hp, hb⟩ := start
  rw [Condition.text, String.toList_append, String.toList_append, String.toList_append, String.toList_append, hd]
  exact endsClause_cons hp hb _

/-- **The conditions of a clause are readable.** -/
theorem Condition.conjunction_readable :
    Readable Condition.conjunction (fun cs => ∀ c ∈ cs, c.IsSupported) endsClause :=
  Condition.text_readable.intercalate (fun _ => rfl) (fun _ h => endsWord_of_endsTable (endsTable_of_endsClause h))
    (fun _ => rfl) Condition.endsClause_text_append

/-- The three ways in which a join is written. -/
inductive JoinForm where
  | cross
  | inner
  | leftOuter
deriving DecidableEq

namespace JoinForm

/-- The words that a join starts with. -/
def words : JoinForm → String
  | cross => "CROSS JOIN "
  | inner => "JOIN "
  | leftOuter => "LEFT OUTER JOIN "

/-- What stands behind the source of a join. -/
def clause (on : List Condition) : JoinForm → List Char
  | cross => []
  | _ => ' ' :: 'O' :: 'N' :: ' ' :: '(' :: ((Condition.conjunction on).toList ++ [')'])

/-- A clause starts with a blank and no `AS`. -/
theorem endsTable_clause_append (f : JoinForm) (on : List Condition) {r : List Char} (hr : endsTable r = true) :
    endsTable (f.clause on ++ r) = true := by
  cases f with
  | cross => exact hr
  | inner => rfl
  | leftOuter => rfl

/-- The conditions of a join are told apart from what follows, unless none are written. -/
theorem clause_append_inj {f : JoinForm} {on on' : List Condition} {r r' : List Char}
    (hon : ∀ c ∈ on, c.IsSupported) (hon' : ∀ c ∈ on', c.IsSupported) (hcross : f = cross → on = on')
    (h : f.clause on ++ r = f.clause on' ++ r') : on = on' ∧ r = r' := by
  have written : ∀ {l l' : List Char}, (Condition.conjunction on).toList ++ ')' :: l =
      (Condition.conjunction on').toList ++ ')' :: l' → on = on' ∧ l = l' := fun h =>
    (Condition.conjunction_readable hon hon' h rfl rfl).imp_right fun h => (List.cons.inj h).2
  cases f with
  | cross => exact ⟨hcross rfl, h⟩
  | inner | leftOuter =>
    simp only [clause, List.cons_append, List.append_assoc, List.nil_append, List.cons.injEq, true_and] at h
    exact written h

/-- The kind of join that is written so. -/
def kind : JoinForm → JoinKind
  | leftOuter => .leftOuter
  | _ => .inner

/-- No words start other ones. -/
theorem words_append_inj {p q : JoinForm} {r r' : List Char}
    (h : p.words.toList ++ r = q.words.toList ++ r') : p = q ∧ r = r' := by
  have apart : ∀ p q : JoinForm, p.words.toList <+: q.words.toList → p.words.toList = q.words.toList := by
    intro p q
    cases p <;> cases q <;> decide
  obtain ⟨hpq, hr⟩ := append_inj_of_not_prefix (apart p q) (apart q p) h
  refine ⟨?_, hr⟩
  cases p <;> cases q <;> first | rfl | exact absurd hpq (by decide)

end JoinForm

namespace JoinKind

/-- The way in which a join is written. -/
def form (kind : JoinKind) (on : List Condition) : JoinForm :=
  match kind, on with
  | inner, [] => .cross
  | inner, _ => .inner
  | leftOuter, _ => .leftOuter

/-- The words of a join tell its kind. -/
theorem kind_form : (kind : JoinKind) → (on : List Condition) → (kind.form on).kind = kind
  | inner, [] => rfl
  | inner, _ :: _ => rfl
  | leftOuter, _ => rfl

/-- A cross join has no conditions. -/
theorem eq_nil_of_form_eq_cross : {kind : JoinKind} → {on : List Condition} → kind.form on = .cross → on = []
  | inner, [], _ => rfl

/-- A join is its first word, its source and its clause. -/
theorem toList_text (source : String) : (kind : JoinKind) → (on : List Condition) →
    (kind.text source on).toList = (kind.form on).words.toList ++ (source.toList ++ (kind.form on).clause on)
  | inner, [] => by
    change ("CROSS JOIN " ++ source).toList = "CROSS JOIN ".toList ++ (source.toList ++ [])
    rw [String.toList_append, List.append_nil]
  | inner, c :: cs => by
    change ("JOIN " ++ source ++ " ON (" ++ Condition.conjunction (c :: cs) ++ ")").toList = _
    simp only [String.toList_append, List.append_assoc]
    rfl
  | leftOuter, on => by
    change ("LEFT OUTER JOIN " ++ source ++ " ON (" ++ Condition.conjunction on ++ ")").toList = _
    simp only [String.toList_append, List.append_assoc]
    rfl

end JoinKind

/-- A kind of join, what is joined and on what. -/
abbrev Join := JoinKind × Source × List Condition

namespace Join

/-- The text of a join behind what stands before it. -/
def text (j : Join) : List Char := ' ' :: (j.1.text j.2.1.text j.2.2).toList

/-- The join of a flattened source. -/
def flatten (j : Join) : Join := (j.1, j.2.1.flatten, j.2.2)

/-- A table ends where a join starts. -/
theorem endsTable_text_append (j : Join) (r : List Char) : endsTable (j.text ++ r) = true := by
  rw [text, JoinKind.toList_text]
  cases j.1.form j.2.2 <;> rfl

/-- No join starts where a tree ends. -/
theorem text_append_ne {r : List Char} (hr : endsClause r = true) (j : Join) (l : List Char) : j.text ++ l ≠ r := by
  rintro rfl
  rw [text, JoinKind.toList_text] at hr
  cases hf : j.1.form j.2.2 <;>
    · rw [hf] at hr
      cases hr

/-- **Joins are told apart** if their sources are. -/
theorem text_append_inj {j j' : Join} {r r' : List Char}
    (hsource : ∀ {l l'}, j.2.1.text.toList ++ l = j'.2.1.text.toList ++ l' → endsTable l = true → endsTable l' = true →
      j.2.1.flatten = j'.2.1.flatten ∧ l = l')
    (hj : ∀ c ∈ j.2.2, c.IsSupported) (hj' : ∀ c ∈ j'.2.2, c.IsSupported) (h : j.text ++ r = j'.text ++ r')
    (hr : endsTable r = true) (hr' : endsTable r' = true) : j.flatten = j'.flatten ∧ r = r' := by
  obtain ⟨kind, s, on⟩ := j
  obtain ⟨kind', s', on'⟩ := j'
  simp only [text, JoinKind.toList_text, List.cons_append, List.append_assoc, List.cons.injEq, true_and] at h
  obtain ⟨hform, h₁⟩ := JoinForm.words_append_inj h
  obtain ⟨hflat, h₂⟩ := hsource h₁ (JoinForm.endsTable_clause_append _ _ hr) (JoinForm.endsTable_clause_append _ _ hr')
  rw [hform] at h₂
  have hcross : kind'.form on' = .cross → on = on' := fun hc => by
    rw [JoinKind.eq_nil_of_form_eq_cross hc, JoinKind.eq_nil_of_form_eq_cross (hform.trans hc)]
  obtain ⟨rfl, h₃⟩ := JoinForm.clause_append_inj hj hj' hcross h₂
  have hkind : kind = kind' := by rw [← kind.kind_form on, hform, kind'.kind_form]
  exact ⟨by rw [flatten, flatten, hkind, hflat], h₃⟩

end Join

namespace JoinTree

/-- A tree is written as its first source and its joins behind it. -/
theorem toList_text : (t : JoinTree) → t.text.toList = t.root.text.toList ++ t.joins.flatMap Join.text
  | .base s => (List.append_nil _).symm
  | .join l kind r on => by
    rw [text, String.toList_append, String.toList_append, toList_text l, root, joins, List.flatMap_append,
      List.append_assoc, List.append_assoc, List.flatMap_singleton]
    rfl

/-- A tree is flattened in its first source and in each of its joins. -/
theorem flatten_eq_ofJoins : (t : JoinTree) → t.flatten = ofJoins t.root.flatten (t.joins.map Join.flatten)
  | .base _ => rfl
  | .join l kind r on => by
    rw [flatten, flatten_eq_ofJoins l, joins, List.map_append, ofJoins, ofJoins, List.foldl_append]
    rfl

/-- The conditions of the first source are among those of the tree. -/
theorem mem_conditions_of_mem_root {c : Condition} : {t : JoinTree} → c ∈ t.root.conditions → c ∈ t.conditions
  | .base _, h => h
  | .join _ _ _ _, h => List.mem_append_left _ (List.mem_append_left _ (mem_conditions_of_mem_root h))

/-- The conditions of every join, and of what it joins, are among those of the tree. -/
theorem mem_conditions_of_mem_joins {c : Condition} {j : Join} :
    {t : JoinTree} → j ∈ t.joins → c ∈ j.2.1.conditions ++ j.2.2 → c ∈ t.conditions
  | .base _, hj, _ => nomatch hj
  | .join l kind r on, hj, h => by
    rw [joins, List.mem_append, List.mem_singleton] at hj
    rw [conditions, List.append_assoc, List.mem_append]
    rcases hj with hj | rfl
    · exact .inl (mem_conditions_of_mem_joins hj h)
    · exact .inr h

/-- The first source of a tree is smaller than the tree. -/
theorem sizeOf_root_lt : (t : JoinTree) → sizeOf t.root < sizeOf t
  | .base s => by simp [root]
  | .join l kind r on => by
    have := sizeOf_root_lt l
    simp only [root, join.sizeOf_spec]
    omega

/-- The source of every join is smaller than the tree. -/
theorem sizeOf_lt_of_mem_joins {j : Join} : {t : JoinTree} → j ∈ t.joins → sizeOf j.2.1 < sizeOf t
  | .base _, hj => nomatch hj
  | .join l kind r on, hj => by
    rw [joins, List.mem_append, List.mem_singleton] at hj
    rw [join.sizeOf_spec]
    rcases hj with hj | rfl
    · have := sizeOf_lt_of_mem_joins hj
      omega
    · simp only
      omega

end JoinTree

/-- A nested tree with joins in it stands in parentheses. -/
theorem Source.toList_text_nested (l : JoinTree) (kind : JoinKind) (s : Source) (on : List Condition) :
    (Source.nested (.join l kind s on)).text.toList = '(' :: ((JoinTree.join l kind s on).text.toList ++ [')']) := by
  rw [Source.text, String.toList_append, String.toList_append]
  rfl

mutual

/-- **Sources are told apart,** but for parentheses that are not written. -/
theorem Source.text_append_inj : (s s' : Source) → {r r' : List Char} → (∀ c ∈ s.conditions, c.IsSupported) →
    (∀ c ∈ s'.conditions, c.IsSupported) → s.text.toList ++ r = s'.text.toList ++ r' → endsTable r = true →
      endsTable r' = true → s.flatten = s'.flatten ∧ r = r'
  | .nested (.base s), s', _, _, hs, hs', h, hr, hr' => Source.text_append_inj s s' hs hs' h hr hr'
  | s, .nested (.base s'), _, _, hs, hs', h, hr, hr' => Source.text_append_inj s s' hs hs' h hr hr'
  | .table t, .table t', _, _, _, _, h, hr, hr' =>
    (Table.text_readable trivial trivial h hr hr').imp_left (congrArg fun t => (Source.table t).flatten)
  | .table t, .nested (.join l kind s on), _, _, _, _, h, _, _ => by
    rw [Source.toList_text_nested, List.cons_append] at h
    exact (t.text_append_ne _ _ h).elim
  | .nested (.join l kind s on), .table t, _, _, _, _, h, _, _ => by
    rw [Source.toList_text_nested, List.cons_append] at h
    exact (t.text_append_ne _ _ h.symm).elim
  | .nested (.join l kind s on), .nested (.join l' kind' s' on'), _, _, hs, hs', h, _, _ => by
    rw [Source.toList_text_nested, Source.toList_text_nested, List.cons_append, List.cons_append, List.append_assoc,
      List.append_assoc] at h
    obtain ⟨hflat, h₁⟩ := JoinTree.text_append_inj (.join l kind s on) (.join l' kind' s' on') hs hs'
      (List.cons.inj h).2 rfl rfl
    exact ⟨congrArg Source.nested hflat, (List.cons.inj h₁).2⟩
termination_by s s' => sizeOf s + sizeOf s'

/-- **Join trees are told apart,** but for parentheses that are not written. -/
theorem JoinTree.text_append_inj (t t' : JoinTree) {r r' : List Char} (ht : ∀ c ∈ t.conditions, c.IsSupported)
    (ht' : ∀ c ∈ t'.conditions, c.IsSupported) (h : t.text.toList ++ r = t'.text.toList ++ r')
    (hr : endsClause r = true) (hr' : endsClause r' = true) : t.flatten = t'.flatten ∧ r = r' := by
  have hsize := t.sizeOf_root_lt
  have hsize' := t'.sizeOf_root_lt
  have hjoin : ∀ j ∈ t.joins, ∀ j' ∈ t'.joins, ∀ l l', Join.text j ++ l = Join.text j' ++ l' →
      endsTable l = true → endsTable l' = true → Join.flatten j = Join.flatten j' ∧ l = l' := fun j hj j' hj' l l' => by
    have hlt := JoinTree.sizeOf_lt_of_mem_joins hj
    have hlt' := JoinTree.sizeOf_lt_of_mem_joins hj'
    refine Join.text_append_inj (fun h hl hl' => ?_) (fun c hc => ?_) fun c hc => ?_
    · exact Source.text_append_inj j.2.1 j'.2.1
        (fun c hc => ht c (JoinTree.mem_conditions_of_mem_joins hj (List.mem_append_left _ hc)))
        (fun c hc => ht' c (JoinTree.mem_conditions_of_mem_joins hj' (List.mem_append_left _ hc))) h hl hl'
    · exact ht c (JoinTree.mem_conditions_of_mem_joins hj (List.mem_append_right _ hc))
    · exact ht' c (JoinTree.mem_conditions_of_mem_joins hj' (List.mem_append_right _ hc))
  rw [JoinTree.toList_text, JoinTree.toList_text, List.append_assoc, List.append_assoc] at h
  obtain ⟨hroot, h₁⟩ := Source.text_append_inj t.root t'.root
    (fun c hc => ht c (JoinTree.mem_conditions_of_mem_root hc))
    (fun c hc => ht' c (JoinTree.mem_conditions_of_mem_root hc)) h
    (after_flatMap_append Join.endsTable_text_append (endsTable_of_endsClause hr) _)
    (after_flatMap_append Join.endsTable_text_append (endsTable_of_endsClause hr') _)
  obtain ⟨hjoins, h₂⟩ := flatMap_append_inj hjoin Join.endsTable_text_append (endsTable_of_endsClause hr)
    (endsTable_of_endsClause hr') (Join.text_append_ne hr) (Join.text_append_ne hr') h₁
  exact ⟨by rw [JoinTree.flatten_eq_ofJoins, JoinTree.flatten_eq_ofJoins, hroot, hjoins], h₂⟩
termination_by sizeOf t + sizeOf t'

end

/-- The two directions have two texts. -/
theorem Direction.text_injective : Function.Injective Direction.text := by
  intro d d'
  cases d <;> cases d' <;> decide

namespace Statement

/-- A text that starts with a blank. -/
def startsBlank : List Char → Bool
  | ' ' :: _ => true
  | _ => false

/-- A blank ends a name. -/
theorem endsWord_of_startsBlank {r : List Char} (h : startsBlank r = true) : endsWord r = true := by
  unfold startsBlank at h
  split at h
  · rfl
  · cases h

/-- A column starts with a name or a quote. -/
theorem startsBlank_column_append (c : Column) (r : List Char) : startsBlank (c.text.toList ++ r) = false := by
  obtain ⟨d, ds, hd, ho⟩ := c.exists_text_eq_cons
  rw [hd, List.cons_append]
  unfold startsBlank
  split
  · next he =>
    rw [(List.cons.inj he).1] at ho
    exact absurd ho (by decide)
  · rfl

/-- The columns of `SELECT` are readable, since a blank follows the last one. -/
theorem select_readable :
    Readable (fun cs : List Column => ", ".intercalate (cs.map Column.text)) (fun cs => ∀ c ∈ cs, True) startsBlank :=
  Column.text_readable.intercalate (fun _ => rfl) (fun _ => endsWord_of_startsBlank) (fun _ => rfl)
    startsBlank_column_append

/-- What the text of a statement has for its own conditions. -/
def whereText (cs : List Condition) : List Char :=
  if cs = [] then [] else " WHERE ".toList ++ (Condition.conjunction cs).toList

/-- What the text of a statement has for its ordering. -/
def orderText : Option OrderBy → List Char
  | none => []
  | some o => " ORDER BY ".toList ++ (o.column.text.toList ++ ' ' :: o.direction.text.toList)

/-- The text of a statement, part by part. -/
theorem toList_text (s : Statement) : s.text.toList = "SELECT ".toList ++
    ((", ".intercalate (s.select.map Column.text)).toList ++
      (" FROM ".toList ++ (s.tables.text.toList ++ (whereText s.conditions ++ orderText s.ordering)))) := by
  have hwhere : (if s.conditions = [] then "" else " WHERE " ++ Condition.conjunction s.conditions).toList =
      whereText s.conditions := by
    unfold whereText
    split
    · rfl
    · rw [String.toList_append]
  rw [text, String.toList_append, String.toList_append, String.toList_append, String.toList_append,
    String.toList_append, hwhere]
  cases s.ordering with
  | none =>
    simp only [List.append_assoc]
    rfl
  | some o =>
    simp only [OrderBy.text, String.toList_append, List.append_assoc]
    rfl

/-- A tree ends where an ordering starts. -/
theorem endsClause_orderText (o : Option OrderBy) : endsClause (orderText o) = true := by
  cases o <;> rfl

/-- A tree ends where the conditions of the statement start. -/
theorem endsClause_whereText_append (cs : List Condition) (o : Option OrderBy) :
    endsClause (whereText cs ++ orderText o) = true := by
  unfold whereText
  split
  · exact endsClause_orderText o
  · rfl

/-- The text of an ordering tells the ordering. -/
theorem orderText_injective : Function.Injective orderText := by
  rintro (_ | ⟨c, d⟩) (_ | ⟨c', d'⟩) h
  · rfl
  · cases h
  · cases h
  · obtain ⟨rfl, h₁⟩ := Column.text_readable trivial trivial (List.append_cancel_left h) rfl rfl
    have hd : d = d' := Direction.text_injective (String.toList_inj.1 (List.cons.inj h₁).2)
    rw [hd]

/-- No `WHERE` starts where an ordering does. -/
theorem where_append_ne_orderText (l : List Char) (o : Option OrderBy) : " WHERE ".toList ++ l ≠ orderText o := by
  cases o <;> exact nofun

/-- **What follows the tree tells the conditions and the ordering,** since they start with different words. -/
theorem whereText_append_inj {cs cs' : List Condition} {o o' : Option OrderBy} (hcs : ∀ c ∈ cs, c.IsSupported)
    (hcs' : ∀ c ∈ cs', c.IsSupported) (h : whereText cs ++ orderText o = whereText cs' ++ orderText o') :
    cs = cs' ∧ o = o' := by
  unfold whereText at h
  split at h <;> split at h
  · next hn hn' => exact ⟨hn.trans hn'.symm, orderText_injective h⟩
  · rw [List.append_assoc] at h
    exact (where_append_ne_orderText _ _ h.symm).elim
  · rw [List.append_assoc] at h
    exact (where_append_ne_orderText _ _ h).elim
  · rw [List.append_assoc, List.append_assoc] at h
    exact (Condition.conjunction_readable hcs hcs' (List.append_cancel_left h) (endsClause_orderText o)
      (endsClause_orderText o')).imp_right fun h => orderText_injective h

/-- **The text of a statement tells the statement,** but for parentheses that are not written. -/
theorem text_eq_iff {s s' : Statement} (hs : s.IsSupported) (hs' : s'.IsSupported) :
    s.text = s'.text ↔ s.flatten = s'.flatten := by
  constructor
  · intro h
    obtain ⟨sel, t, cs, o⟩ := s
    obtain ⟨sel', t', cs', o'⟩ := s'
    have h₀ := congrArg String.toList h
    rw [toList_text, toList_text] at h₀
    obtain ⟨rfl, h₁⟩ := select_readable (fun _ _ => trivial) (fun _ _ => trivial) (List.append_cancel_left h₀) rfl rfl
    obtain ⟨ht, h₂⟩ := JoinTree.text_append_inj t t' (fun c hc => hs c (List.mem_append_left _ hc))
      (fun c hc => hs' c (List.mem_append_left _ hc)) (List.append_cancel_left h₁)
      (endsClause_whereText_append ..) (endsClause_whereText_append ..)
    obtain ⟨rfl, rfl⟩ := whereText_append_inj (fun c hc => hs c (List.mem_append_right _ hc))
      (fun c hc => hs' c (List.mem_append_right _ hc)) h₂
    rw [flatten, flatten, ht]
  · intro h
    have text_flatten : ∀ s : Statement, s.flatten.text = s.text := fun s => by
      rw [text, text, flatten, JoinTree.text_flatten]
    rw [← text_flatten s, h, text_flatten s']

end Statement
end Sql

namespace Compile

open Pattern Sql

/-- A condition of an element has the operator of a filter that was accepted, or is an equality. -/
theorem Grounded.isSupported {column : String → Column → Prop} {constant : Column → String → Prop}
    {filters accepted : List Filter} {e : Condition} (haccept : accepted.mapM Pending.accept = .ok filters)
    (h : Grounded column constant filters e) : e.IsSupported := by
  have mem_text : ∀ c : Comparison, c.text ∈ Comparison.all.map Comparison.text := fun c =>
    List.mem_map_of_mem c.mem_all
  cases h with
  | constant h => exact mem_text .equal
  | equality hc hd => exact mem_text .equal
  | filter hf he h =>
    obtain ⟨f, -, hf⟩ := exists_left_of_forall₂ (mapM_eq_ok_except.1 haccept) hf
    rw [Condition.IsSupported, (conditionOf?_eq_some.1 he).2.2]
    unfold Pending.accept at hf
    split at hf
    · cases hf
    · next c _ =>
      split at hf
      · cases hf
      · cases hf
        exact mem_text c

/-- The operator of every condition was read from a filter or is `=`. -/
theorem Compilation.isSupported {cat : Catalog} {q : Query} {targets : List String}
    {ordering : Option (String × Direction)} {st : Statement} {req opt : List Member}
    (h : Compilation cat q targets ordering st req opt) : st.IsSupported := by
  intro e he
  obtain ⟨m, hm, hg⟩ := h.exists_grounds he
  obtain ⟨gp, -, hof⟩ := h.members.exists_of_mem hm
  exact Grounded.isSupported hof.accepted hg

/-- **The text of a statement can be read in one way only.** Every statement that compiles has supported operators
alone, and two statements with supported operators have the same text exactly if they are the same but for
parentheses that are not written. -/
theorem Session.build_text_eq_iff :
    (∀ (S : Session) (st : Statement), S.build.1 = .ok st → st.IsSupported) ∧
      ∀ s s' : Statement, s.IsSupported → s'.IsSupported → (s.text = s'.text ↔ s.flatten = s'.flatten) := by
  refine ⟨fun S st h => ?_, fun s s' => Statement.text_eq_iff⟩
  obtain ⟨-, scope, hs⟩ := Session.build_eq_ok h
  obtain ⟨req, opt, hc⟩ := statement_eq_ok hs
  exact hc.isSupported

/-- A source joined to a table, with names and a literal that are spelled like other parts of a statement. -/
def disguised (s : Source) : Statement where
  select := [⟨"FROM", "a\" AS b"⟩]
  tables := .join (.base (.table ⟨"x) JOIN y", "FROM"⟩)) .inner s
    [⟨.column ⟨"FROM", ""⟩, "<>", .literal "') WHERE '' = ('"⟩]
  conditions := []
  ordering := none

/-- The operators of `disguised` are supported, whatever its source is called. -/
theorem disguised_isSupported (t : Table) : (disguised (.table t)).IsSupported ∧
    (disguised (.nested (.base (.table t)))).IsSupported := by
  have h : ∀ c ∈ [(⟨.column ⟨"FROM", ""⟩, "<>", .literal "') WHERE '' = ('"⟩ : Condition)], c.IsSupported :=
    List.forall_mem_singleton.2 (by decide : "<>" ∈ Comparison.all.map Comparison.text)
  exact ⟨h, h⟩

/-- Parentheses around a table alone are not written; a table that is called `t AS u` is written in quotes. -/
theorem Session.friends_text_eq_iff : (∃ st, friends.build.1 = .ok st ∧ st.IsSupported) ∧
    (disguised (.nested (.base (.table ⟨"t", "u"⟩)))).text = (disguised (.table ⟨"t", "u"⟩)).text ∧
      (disguised (.table ⟨"t AS u", "t AS u"⟩)).text ≠ (disguised (.table ⟨"t", "u"⟩)).text := by
  obtain ⟨supported, readable⟩ := build_text_eq_iff
  obtain ⟨st, h⟩ := exists_build_friends
  refine ⟨⟨st, h, supported _ st h⟩, ?_, ?_⟩
  · exact (readable _ _ (disguised_isSupported _).2 (disguised_isSupported _).1).2 rfl
  · intro he
    exact absurd ((readable _ _ (disguised_isSupported _).1 (disguised_isSupported _).1).1 he) (by decide)

end Compile
end TripleSql
