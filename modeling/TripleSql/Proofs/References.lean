/-
# What the variables of a file depend on

An assignment may refer to variables of the environment and to variables that the file assigned to before it. Two
environments that agree on all that the assignments of a file refer to therefore find the same assignments in it
(`assignments_congr`).

| part of a value | variables it may refer to |
| --- | --- |
| `$`, not followed by a brace | that of the ASCII letters and digits after it |
| `$` and a brace | that of what stands before the closing brace |
| anything else | none |

Where a reference starts it is not yet clear which of the two it is, so `mentioned` counts both.
-/

import TripleSql.Settings.Environment

namespace TripleSql
namespace Settings

/-- Two environments have the same values for some variables. -/
def AgreeOn (names : List String) (env env' : String → Option String) : Prop := ∀ name ∈ names, env name = env' name

variable {env env' : String → Option String}

/-- Environments that agree on some variables agree on fewer. -/
theorem AgreeOn.mono {names names' : List String} (h : AgreeOn names env env') (hsub : names' ⊆ names) :
    AgreeOn names' env env' :=
  fun name hname => h name (hsub hname)

/-- One more assignment stands behind both environments. -/
theorem AgreeOn.orElse {names : List String} (h : AgreeOn names env env') (extra : String → Option String) :
    AgreeOn names (fun name => env name <|> extra name) (fun name => env' name <|> extra name) :=
  fun name hname => by simp only [h name hname]

/-- A reference depends on the variable that it names. -/
theorem referred_congr {name : List Char} (h : env (String.ofList name) = env' (String.ofList name)) :
    referred env name = referred env' name := by
  rw [referred, referred, h]

/-- One more character takes no reference away. -/
theorem mentioned_subset_cons (c : Char) (cs : List Char) : mentioned cs ⊆ mentioned (c :: cs) := by
  rw [mentioned]
  split
  · exact fun name hname => List.mem_cons_of_mem _ (List.mem_cons_of_mem _ hname)
  · exact fun name hname => hname

/-- The references at the end of a text are references of the text. -/
theorem mentioned_subset_of_suffix {cs ds : List Char} (h : cs <:+ ds) : mentioned cs ⊆ mentioned ds := by
  obtain ⟨before, rfl⟩ := h
  induction before with
  | nil => exact fun name hname => hname
  | cons c before ih => exact List.Subset.trans ih (mentioned_subset_cons c _)

section Values

/-- What a reference may be to, of whose name a part is read. -/
structure AgreeFrom (name cs : List Char) (env env' : String → Option String) : Prop where
  plain : env (String.ofList (name ++ cs.takeWhile Char.isAlphanum)) =
    env' (String.ofList (name ++ cs.takeWhile Char.isAlphanum))
  braced : name = [] → env (String.ofList ((cs.drop 1).takeWhile (· ≠ '\x7d'))) =
    env' (String.ofList ((cs.drop 1).takeWhile (· ≠ '\x7d')))
  rest : AgreeOn (mentioned cs) env env'

/-- What agrees on all that is mentioned from a place on does so from the next place on. -/
theorem AgreeOn.tail {c : Char} {cs : List Char} (h : AgreeOn (mentioned (c :: cs)) env env') :
    AgreeOn (mentioned cs) env env' :=
  h.mono (mentioned_subset_cons c cs)

/-- A reference starts after its `$`. -/
theorem AgreeOn.agreeFrom {cs : List Char} (h : AgreeOn (mentioned ('$' :: cs)) env env') :
    AgreeFrom [] cs env env' where
  plain := h _ (by simp [mentioned])
  braced _ := h _ (by simp [mentioned])
  rest := h.tail

/-- Where a name ends, it is referred to alike. -/
theorem AgreeFrom.referred_eq {name cs : List Char} (h : AgreeFrom name cs env env')
    (hend : cs.takeWhile Char.isAlphanum = []) : referred env name = referred env' name := by
  have hplain := h.plain
  rw [hend, List.append_nil] at hplain
  exact referred_congr hplain

mutual

/-- **A value depends on what it mentions alone.** -/
theorem value?_congr (quoted : Bool) : (cs : List Char) → AgreeOn (mentioned cs) env env' →
    value? env quoted cs = value? env' quoted cs
  | [], _ => rfl
  | c :: cs, h => by
    have hvalue := fun quoted => value?_congr quoted cs h.tail
    have hescaped := escaped?_congr quoted cs h.tail
    have hsingle := single?_congr cs h.tail
    by_cases hc : c = '$'
    · subst hc
      exact reference?_congr quoted [] cs h.agreeFrom
    · simp only [value?, hc, if_false, hvalue, hescaped, hsingle]

/-- Behind a backslash nothing is referred to, and what follows is read alike. -/
theorem escaped?_congr (quoted : Bool) : (cs : List Char) → AgreeOn (mentioned cs) env env' →
    escaped? env quoted cs = escaped? env' quoted cs
  | [], _ => rfl
  | c :: cs, h => by simp only [escaped?, value?_congr quoted cs h.tail]

/-- Inside single quotes nothing is referred to. -/
theorem single?_congr : (cs : List Char) → AgreeOn (mentioned cs) env env' → single? env cs = single? env' cs
  | [], _ => rfl
  | c :: cs, h => by simp only [single?, value?_congr false cs h.tail, single?_congr cs h.tail]

/-- The name of a reference is read character by character; where it ends it is known. -/
theorem reference?_congr (quoted : Bool) (name : List Char) : (cs : List Char) → AgreeFrom name cs env env' →
    reference? env quoted name cs = reference? env' quoted name cs
  | [], h => by rw [reference?, reference?, h.referred_eq rfl]
  | c :: cs, h => by
    by_cases hc : c.isAlphanum = true
    · have hnext : AgreeFrom (name ++ [c]) cs env env' :=
        ⟨by simpa [List.takeWhile_cons, hc] using h.plain, by simp, h.rest.tail⟩
      simp only [reference?, hc, if_true, reference?_congr quoted (name ++ [c]) cs hnext]
    · have hname := h.referred_eq (by simp [hc])
      have hvalue := value?_congr quoted cs h.rest.tail
      by_cases hdollar : c = '$'
      · subst hdollar
        simp [reference?, hc, hname, reference?_congr quoted [] cs h.rest.agreeFrom]
      · by_cases hbrace : c = '\x7b' ∧ name = []
        · obtain ⟨rfl, rfl⟩ := hbrace
          have hbraced := braced?_congr quoted [] cs (h.braced rfl) h.rest.tail
          simp [reference?, hc, hbraced]
        · simp [reference?, hc, hbrace, hdollar, hname, hvalue]

/-- The name of a reference in braces goes up to the closing one. -/
theorem braced?_congr (quoted : Bool) (name : List Char) : (cs : List Char) →
    env (String.ofList (name ++ cs.takeWhile (· ≠ '\x7d'))) = env' (String.ofList (name ++ cs.takeWhile (· ≠ '\x7d'))) →
    AgreeOn (mentioned cs) env env' → braced? env quoted name cs = braced? env' quoted name cs
  | [], _, _ => rfl
  | c :: cs, hname, h => by
    by_cases hc : c = '\x7d'
    · subst hc
      have hreferred : referred env name = referred env' name := referred_congr (by simpa using hname)
      simp only [braced?, if_true, hreferred, value?_congr quoted cs h.tail]
    · have hnext := braced?_congr quoted (name ++ [c]) cs (by simpa [hc] using hname) h.tail
      simp only [braced?, hc, if_false, hnext]

end

end Values

section Files

/-- The name of a variable is taken off the front of an assignment. -/
theorem suffix_of_variableName? {cs rest : List Char} {name : String} (h : variableName? cs = some (name, rest)) :
    rest <:+ cs := by
  cases cs with
  | nil => cases h
  | cons c cs =>
    rw [variableName?] at h
    split at h
    · cases h
      exact (List.dropWhile_suffix _).trans (List.suffix_cons c cs)
    · cases h

/-- Blanks are taken off the front of a text. -/
theorem trimStart_suffix (cs : List Char) : Text.trimStart cs <:+ cs := List.dropWhile_suffix _

/-- What follows the equals sign of an assignment is the end of its text. -/
theorem suffix_of_assignee? {cs rest : List Char} {name : String} (h : assignee? cs = some (name, rest)) :
    rest <:+ cs := by
  simp only [assignee?, Option.bind_eq_bind, Option.bind_eq_some_iff, Prod.exists] at h
  obtain ⟨first, afterFirst, hfirst, h⟩ := h
  have hafterFirst := (trimStart_suffix afterFirst).trans (suffix_of_variableName? hfirst)
  split at h
  · next heq =>
    cases h
    exact (heq ▸ List.suffix_cons _ _).trans hafterFirst
  · split at h
    · simp only [Option.bind_eq_some_iff, Prod.exists] at h
      obtain ⟨second, afterSecond, hsecond, h⟩ := h
      have hafterSecond := (trimStart_suffix afterSecond).trans (suffix_of_variableName? hsecond)
      split at h
      · next heq =>
        cases h
        exact ((heq ▸ List.suffix_cons _ _).trans hafterSecond).trans hafterFirst
      · cases h
    · cases h

/-- What the value of an assignment may refer to stands in its text. -/
theorem assignment?_congr {text : List Char}
    (h : AgreeOn (mentioned (Text.trimStart (Text.trimEnd text))) env env') :
    assignment? env text = assignment? env' text := by
  simp only [assignment?]
  split
  · rfl
  · cases hassignee : assignee? (Text.trimStart (Text.trimEnd text)) with
    | none => rfl
    | some a =>
      obtain ⟨name, rest⟩ := a
      have hrest := (trimStart_suffix rest).trans (suffix_of_assignee? hassignee)
      have hvalue := value?_congr false (Text.trimStart rest) (h.mono (mentioned_subset_of_suffix hrest))
      simp only [Option.bind_eq_bind, Option.bind_some, hvalue]

/-- The variables that the records of a file may refer to. -/
def references (rs : List (List Char)) : List String :=
  rs.flatMap fun r => mentioned (Text.trimStart (Text.trimEnd r))

/-- **The assignments of a file depend on the variables that it refers to alone.** Those that it assigned to before stand
behind both environments alike. -/
theorem assignments_congr {rs : List (List Char)} (h : AgreeOn (references rs) env env') :
    assignments env rs = assignments env' rs := by
  induction rs generalizing env env' with
  | nil => rfl
  | cons r rs ih =>
    rw [references, List.flatMap_cons] at h
    have hr := assignment?_congr (h.mono (List.subset_append_left _ _))
    have hrs : AgreeOn (references rs) env env' := h.mono (List.subset_append_right _ _)
    rw [assignments, assignments, hr]
    cases assignment? env' r with
    | none => rfl
    | some a =>
      cases a with
      | none => exact ih hrs
      | some a => simp only [ih (hrs.orElse _)]

end Files
end Settings
end TripleSql
