/-
# Names, literals and conditions can be told apart

What is written is readable if it shows where it ends: of two texts that start with a written value, both the value and
what follows it are the same if the texts are (`Readable`). It depends on what may follow.

| what | how it ends |
| --- | --- |
| plain name | at the first character that no plain name has |
| quoted name, literal | at the first quote that no second quote follows |
| operator | at a blank, and no operator with its blank starts another one with its blank |
| list with a separator | where neither the separator nor, if the list is empty, a value starts |

None of it asks for names or literals of a certain form, so they may hold quotes, blanks, parentheses and keywords.
-/

import TripleSql.Pattern.Comparison
import TripleSql.Sql.Text

namespace TripleSql
namespace Sql

open Pattern

/-- Of two texts that start with written values, what was written and what follows it can be told apart. The values are
taken from `good`, and what follows from `after`. -/
def Readable {α : Type} (write : α → String) (good : α → Prop) (after : List Char → Bool) : Prop :=
  ∀ {x y : α} {r r' : List Char}, good x → good y → (write x).toList ++ r = (write y).toList ++ r' →
    after r = true → after r' = true → x = y ∧ r = r'

/-- What may follow a name or a literal: nothing, or a character that is in no name and no quote. -/
def endsWord : List Char → Bool
  | [] => true
  | c :: _ => [' ', '.', ',', ')'].contains c

/-- What ends a word starts with no character of a name and with no quote. -/
theorem not_mem_head?_of_endsWord {r : List Char} (h : endsWord r = true) {c : Char} (hc : r.head? = some c) :
    continuesName c = false ∧ c ≠ '"' ∧ c ≠ '\'' := by
  cases r with
  | nil => cases hc
  | cons d r =>
    obtain rfl := Option.some.inj hc
    simp only [endsWord, List.contains_eq_mem, List.mem_cons, List.not_mem_nil, or_false, decide_eq_true_eq] at h
    rcases h with rfl | rfl | rfl | rfl <;> decide

/-- Two runs of characters of one class end where the class ends. -/
theorem append_inj_of_all {p : Char → Bool} {as bs r r' : List Char} (ha : as.all p = true) (hb : bs.all p = true)
    (hr : ∀ c, r.head? = some c → p c = false) (hr' : ∀ c, r'.head? = some c → p c = false)
    (h : as ++ r = bs ++ r') : as = bs ∧ r = r' := by
  have stop : ∀ {l : List Char}, (∀ c, l.head? = some c → p c = false) → l.takeWhile p = [] := by
    intro l hl
    cases l with
    | nil => rfl
    | cons c l => rw [List.takeWhile_cons, hl c rfl]; rfl
  have hab := congrArg (List.takeWhile p) h
  rw [List.takeWhile_append_of_pos (List.all_eq_true.1 ha), List.takeWhile_append_of_pos (List.all_eq_true.1 hb),
    stop hr, stop hr', List.append_nil, List.append_nil] at hab
  subst hab
  exact ⟨rfl, List.append_cancel_left h⟩

/-- A text in which `q` is written twice ends at the first `q` that stands alone. -/
theorem doubled_append_inj {q : Char} {as bs r r' : List Char} (hr : r.head? ≠ some q) (hr' : r'.head? ≠ some q)
    (h : doubled q as ++ q :: r = doubled q bs ++ q :: r') : as = bs ∧ r = r' := by
  induction as generalizing bs with
  | nil =>
    cases bs with
    | nil => exact ⟨rfl, (List.cons.inj h).2⟩
    | cons b bs =>
      by_cases hb : b = q
      · simp only [doubled, hb, if_true, List.nil_append, List.cons_append, List.cons.injEq, true_and] at h
        exact absurd (h ▸ rfl) hr
      · simp only [doubled, hb, if_false, List.nil_append, List.cons_append, List.cons.injEq] at h
        exact absurd h.1.symm hb
  | cons a as ih =>
    cases bs with
    | nil =>
      by_cases ha : a = q
      · simp only [doubled, ha, if_true, List.nil_append, List.cons_append, List.cons.injEq, true_and] at h
        exact absurd (h ▸ rfl) hr'
      · simp only [doubled, ha, if_false, List.nil_append, List.cons_append, List.cons.injEq] at h
        exact h.1.elim
    | cons b bs =>
      by_cases ha : a = q <;> by_cases hb : b = q <;>
        simp only [doubled, ha, hb, if_true, if_false, List.cons_append, List.cons.injEq, true_and] at h
      · obtain ⟨rfl, hrr⟩ := ih h
        exact ⟨by rw [ha, hb], hrr⟩
      · exact absurd h.1.symm hb
      · exact h.1.elim
      · obtain ⟨rfl, hrr⟩ := ih h.2
        exact ⟨by rw [h.1], hrr⟩

/-- A quoted text and what follows it, between its two quotes and behind them. -/
theorem toList_quoted_append (q : Char) (s : String) (r : List Char) :
    (quoted q s).toList ++ r = q :: (doubled q s.toList ++ q :: r) := by
  simp [quoted]

/-- **Quoted texts are readable:** the closing quote is the one that no second follows. -/
theorem quoted_append_inj {q : Char} {s t : String} {r r' : List Char} (hr : r.head? ≠ some q) (hr' : r'.head? ≠ some q)
    (h : (quoted q s).toList ++ r = (quoted q t).toList ++ r') : s = t ∧ r = r' := by
  rw [toList_quoted_append, toList_quoted_append, List.cons.injEq] at h
  exact (doubled_append_inj hr hr' h.2).imp_left String.toList_inj.1

/-- The first character of a written name. -/
def opensName (c : Char) : Bool := startsName c || c == '"'

/-- A plain name starts with a letter or `_` and goes on with such characters and digits. -/
theorem exists_of_isPlain {n : String} (h : isPlain n = true) :
    ∃ c cs, n.toList = c :: cs ∧ startsName c = true ∧ cs.all continuesName = true := by
  unfold isPlain at h
  split at h
  · cases h
  · next c cs hn => exact ⟨c, cs, hn, Bool.and_eq_true_iff.1 h⟩

/-- A name is written with a letter, `_` or a double quote at its start. -/
theorem exists_quoteName_eq_cons (n : String) : ∃ c cs, (quoteName n).toList = c :: cs ∧ opensName c = true := by
  unfold quoteName
  split
  · next h =>
    obtain ⟨c, cs, hn, hc, -⟩ := exists_of_isPlain h
    exact ⟨c, cs, hn, by rw [opensName, hc, Bool.true_or]⟩
  · exact ⟨'"', doubled '"' n.toList ++ ['"'], String.toList_ofList, rfl⟩

/-- All characters of a plain name are characters of plain names. -/
theorem all_continuesName {n : String} (h : isPlain n = true) : n.toList.all continuesName = true := by
  obtain ⟨c, cs, hn, hc, hcs⟩ := exists_of_isPlain h
  rw [hn, List.all_cons, hcs, Bool.and_true]
  simp only [startsName, continuesName, Char.isAlphanum, Bool.or_eq_true] at hc ⊢
  exact hc.imp_left .inl

/-- A plain name is not read as a quoted one. -/
theorem plain_append_ne_quoted {m n : String} (h : isPlain n = true) (r r' : List Char) :
    n.toList ++ r ≠ (quoted '"' m).toList ++ r' := by
  obtain ⟨c, cs, hn, hc, -⟩ := exists_of_isPlain h
  rw [hn, toList_quoted_append]
  intro he
  rw [(List.cons.inj he).1] at hc
  exact absurd hc (by decide)

/-- **Names are readable.** A plain name goes as far as it can, any other ends at its closing quote. -/
theorem quoteName_readable : Readable quoteName (fun _ => True) endsWord := by
  intro m n r r' _ _ h hr hr'
  unfold quoteName at h
  split at h <;> split at h
  · next hm hn =>
    exact (append_inj_of_all (all_continuesName hm) (all_continuesName hn)
      (fun c hc => (not_mem_head?_of_endsWord hr hc).1) (fun c hc => (not_mem_head?_of_endsWord hr' hc).1) h).imp_left
      String.toList_inj.1
  · next hm _ => exact (plain_append_ne_quoted hm _ _ h).elim
  · next hn => exact (plain_append_ne_quoted hn _ _ h.symm).elim
  · exact quoted_append_inj (fun hc => (not_mem_head?_of_endsWord hr hc).2.1 rfl)
      (fun hc => (not_mem_head?_of_endsWord hr' hc).2.1 rfl) h

/-- **Literals are readable,** whatever stands in them. -/
theorem quoteLiteral_readable : Readable quoteLiteral (fun _ => True) endsWord := by
  intro m n r r' _ _ h hr hr'
  exact quoted_append_inj (fun hc => (not_mem_head?_of_endsWord hr hc).2.2 rfl)
    (fun hc => (not_mem_head?_of_endsWord hr' hc).2.2 rfl) h

/-- **Columns are readable:** the dot ends the alias, and what ends a word ends the name. -/
theorem Column.text_readable : Readable Column.text (fun _ => True) endsWord := by
  rintro ⟨a, c⟩ ⟨b, d⟩ r r' _ _ h hr hr'
  simp only [Column.text, qualified, String.toList_append, String.reduceToList, List.append_assoc, List.cons_append,
    List.nil_append] at h
  obtain ⟨rfl, h₁⟩ := quoteName_readable trivial trivial h rfl rfl
  obtain ⟨rfl, h₂⟩ := quoteName_readable trivial trivial (List.cons.inj h₁).2 hr hr'
  exact ⟨rfl, h₂⟩

/-- A column starts like a name. -/
theorem Column.exists_text_eq_cons (c : Column) : ∃ d ds, c.text.toList = d :: ds ∧ opensName d = true := by
  obtain ⟨d, ds, hd, ho⟩ := exists_quoteName_eq_cons c.tableAlias
  exact ⟨d, _, by rw [Column.text, qualified, String.toList_append, String.toList_append, hd]; rfl, ho⟩

/-- A column is not read as a literal, which starts with a single quote. -/
theorem Column.text_append_ne_quoted (c : Column) (v : String) (r r' : List Char) :
    c.text.toList ++ r ≠ (quoteLiteral v).toList ++ r' := by
  obtain ⟨d, ds, hd, ho⟩ := c.exists_text_eq_cons
  rw [hd, quoteLiteral, toList_quoted_append]
  intro he
  rw [(List.cons.inj he).1] at ho
  exact absurd ho (by decide)

/-- **Operands are readable:** columns and literals start in different ways. -/
theorem Operand.text_readable : Readable Operand.text (fun _ => True) endsWord := by
  intro x y r r' _ _ h hr hr'
  cases x with
  | column c =>
    cases y with
    | column d => exact (Column.text_readable trivial trivial h hr hr').imp_left (congrArg _)
    | literal w => exact (c.text_append_ne_quoted w _ _ h).elim
  | literal v =>
    cases y with
    | column d => exact (d.text_append_ne_quoted v _ _ h.symm).elim
    | literal w => exact (quoteLiteral_readable trivial trivial h hr hr').imp_left (congrArg _)

/-- The operator is one of those that filters compare by. -/
def Condition.IsSupported (c : Condition) : Prop := c.operator ∈ Comparison.all.map Comparison.text

/-- Of two words none of which starts the other, the word and what follows it can be told apart. -/
theorem append_inj_of_not_prefix {p q r r' : List Char} (hp : p <+: q → p = q) (hq : q <+: p → q = p)
    (h : p ++ r = q ++ r') : p = q ∧ r = r' := by
  have hpq : p = q := by
    rcases List.prefix_or_prefix_of_prefix ⟨r, h⟩ ⟨r', rfl⟩ with h | h
    · exact hp h
    · exact (hq h).symm
  subst hpq
  exact ⟨rfl, List.append_cancel_left h⟩

/-- **No operator with its blank starts another one with its blank,** so an operator ends where it ends. -/
theorem operator_append_inj {o o' : String} {r r' : List Char} (ho : o ∈ Comparison.all.map Comparison.text)
    (ho' : o' ∈ Comparison.all.map Comparison.text) (h : o.toList ++ ' ' :: r = o'.toList ++ ' ' :: r') :
    o = o' ∧ r = r' := by
  have apart : ∀ p ∈ Comparison.all.map Comparison.text, ∀ q ∈ Comparison.all.map Comparison.text,
      p.toList ++ [' '] <+: q.toList ++ [' '] → p.toList ++ [' '] = q.toList ++ [' '] := by decide
  rw [List.append_cons, List.append_cons o'.toList] at h
  obtain ⟨hoo, hr⟩ := append_inj_of_not_prefix (apart o ho o' ho') (apart o' ho' o ho) h
  exact ⟨String.toList_inj.1 (List.append_cancel_right hoo), hr⟩

/-- **Conditions are readable** if their operators are supported ones. -/
theorem Condition.text_readable : Readable Condition.text IsSupported endsWord := by
  rintro ⟨a, o, b⟩ ⟨a', o', b'⟩ r r' ho ho' h hr hr'
  simp only [Condition.text, String.toList_append, String.reduceToList, List.append_assoc, List.cons_append,
    List.nil_append] at h
  obtain ⟨rfl, h₁⟩ := Operand.text_readable trivial trivial h rfl rfl
  obtain ⟨rfl, h₂⟩ := operator_append_inj ho ho' (List.cons.inj h₁).2
  obtain ⟨rfl, h₃⟩ := Operand.text_readable trivial trivial h₂ hr hr'
  exact ⟨rfl, h₃⟩

/-- What may follow every value may stand before a run of values that ends in what may follow. -/
theorem after_flatMap_append {α : Type} {f : α → List Char} {after : List Char → Bool} {r : List Char}
    (hstart : ∀ x l, after (f x ++ l) = true) (hr : after r = true) : (xs : List α) → after (xs.flatMap f ++ r) = true
  | [] => hr
  | x :: xs => by rw [List.flatMap_cons, List.append_assoc]; exact hstart ..

/-- Of two runs of written values, the values and what follows the runs can be told apart, as far as `view` shows
them: no value starts where a run ends. -/
theorem flatMap_append_inj {α β : Type} {f : α → List Char} {view : α → β} {after : List Char → Bool} {xs ys : List α}
    {r r' : List Char}
    (hinj : ∀ x ∈ xs, ∀ y ∈ ys, ∀ l l', f x ++ l = f y ++ l' → after l = true → after l' = true →
      view x = view y ∧ l = l')
    (hstart : ∀ x l, after (f x ++ l) = true) (hr : after r = true) (hr' : after r' = true)
    (hx : ∀ x l, f x ++ l ≠ r) (hx' : ∀ x l, f x ++ l ≠ r')
    (h : xs.flatMap f ++ r = ys.flatMap f ++ r') : xs.map view = ys.map view ∧ r = r' := by
  induction xs generalizing ys with
  | nil =>
    cases ys with
    | nil => exact ⟨rfl, h⟩
    | cons y ys =>
      rw [List.flatMap_cons, List.append_assoc] at h
      exact (hx _ _ h.symm).elim
  | cons x xs ih =>
    cases ys with
    | nil =>
      rw [List.flatMap_cons, List.append_assoc] at h
      exact (hx' _ _ h).elim
    | cons y ys =>
      rw [List.flatMap_cons, List.flatMap_cons, List.append_assoc, List.append_assoc] at h
      obtain ⟨hxy, h₁⟩ := hinj x (List.mem_cons_self ..) y (List.mem_cons_self ..) _ _ h
        (after_flatMap_append hstart hr xs) (after_flatMap_append hstart hr' ys)
      obtain ⟨hxs, h₂⟩ := ih (fun a ha b hb => hinj a (List.mem_cons_of_mem _ ha) b (List.mem_cons_of_mem _ hb)) h₁
      exact ⟨by rw [List.map_cons, List.map_cons, hxy, hxs], h₂⟩

/-- Values with a separator between two of them: the first one, and the others behind the separator. -/
theorem toList_intercalate_cons {α : Type} (write : α → String) (sep : String) (x : α) (xs : List α) :
    (sep.intercalate ((x :: xs).map write)).toList =
      (write x).toList ++ xs.flatMap fun y => sep.toList ++ (write y).toList := by
  induction xs generalizing x with
  | nil => simp
  | cons y ys ih =>
    rw [List.map_cons, List.map_cons, String.intercalate_cons_cons, String.toList_append, String.toList_append,
      ← List.map_cons, ih, List.flatMap_cons, List.append_assoc, List.append_assoc]

/-- **Lists with a separator are readable** before texts that start neither with the separator nor with a value. -/
theorem Readable.intercalate {α : Type} {write : α → String} {good : α → Prop} {after stop : List Char → Bool}
    {sep : String} (h : Readable write good after) (hsep : ∀ r, after (sep.toList ++ r) = true)
    (hstop : ∀ r, stop r = true → after r = true) (hne : ∀ r, stop (sep.toList ++ r) = false)
    (hopen : ∀ x r, stop ((write x).toList ++ r) = false) :
    Readable (fun xs : List α => sep.intercalate (xs.map write)) (fun xs => ∀ x ∈ xs, good x) stop := by
  have apart : ∀ {l r : List Char}, stop r = true → stop l = false → l ≠ r := by
    rintro l r hr hl rfl
    rw [hr] at hl
    cases hl
  have start : ∀ x l, after ((sep.toList ++ (write x).toList) ++ l) = true := fun x l => by
    rw [List.append_assoc]
    exact hsep _
  -- A list is its first value and then, for each further one, the separator and the value.
  have stopped : ∀ {r}, stop r = true → ∀ x l, (sep.toList ++ (write x).toList) ++ l ≠ r := fun hr x l => by
    rw [List.append_assoc]
    exact apart hr (hne _)
  intro xs ys r r' hxs hys he hr hr'
  cases xs with
  | nil =>
    cases ys with
    | nil => exact ⟨rfl, he⟩
    | cons y ys =>
      rw [toList_intercalate_cons, List.append_assoc] at he
      exact (apart hr (hopen ..) he.symm).elim
  | cons x xs =>
    cases ys with
    | nil =>
      rw [toList_intercalate_cons, List.append_assoc] at he
      exact (apart hr' (hopen ..) he).elim
    | cons y ys =>
      rw [toList_intercalate_cons, toList_intercalate_cons, List.append_assoc, List.append_assoc] at he
      obtain ⟨rfl, h₁⟩ := h (hxs x (List.mem_cons_self ..)) (hys y (List.mem_cons_self ..)) he
        (after_flatMap_append start (hstop r hr) xs) (after_flatMap_append start (hstop r' hr') ys)
      have hinj : ∀ a ∈ xs, ∀ b ∈ ys, ∀ l l',
          (sep.toList ++ (write a).toList) ++ l = (sep.toList ++ (write b).toList) ++ l' → after l = true → after l' = true → id a = id b ∧ l = l' := fun a ha b hb l l' hab => by
        rw [List.append_assoc, List.append_assoc] at hab
        exact h (hxs a (List.mem_cons_of_mem _ ha)) (hys b (List.mem_cons_of_mem _ hb)) (List.append_cancel_left hab)
      obtain ⟨h₂, h₃⟩ := flatMap_append_inj hinj start (hstop r hr) (hstop r' hr') (stopped hr) (stopped hr') h₁
      rw [List.map_id, List.map_id] at h₂
      exact ⟨by rw [h₂], h₃⟩

end Sql
end TripleSql
