/-
# Which nodes can be written

A node is well formed if it is

* a variable whose name is not empty and has no blank, or
* a constant that is not empty, has no blank at its ends and does not start with `?`.

These are just the nodes that some text is read as (`Node.exists_parse_eq_ok`), and a well-formed node is what its own text
is read as (`Node.IsWellFormed.parse_text`). So a node that was read can be written and read again.

| node | its text | read as |
| --- | --- | --- |
| the variable `?x` | `??x` | the variable `?x` |
| the variable `a b` | `?a b` | nothing |
| the constant `?x` | `?x` | the variable `x` |
| the constant ` a` | ` a` | the constant `a` |
-/

import Mathlib.Data.List.DropRight
import TripleSql.Pattern.Node

namespace TripleSql

namespace Text

/-- What is left of a text starts with no blank. -/
theorem trimStart_trimEnd_trimStart (cs : List Char) :
    trimStart (trimEnd (trimStart cs)) = trimEnd (trimStart cs) := by
  have hsub : trimEnd (trimStart cs) <+: trimStart cs := List.rdropWhile_prefix ..
  refine List.dropWhile_eq_self_iff.2 fun hlen => ?_
  rw [hsub.getElem hlen]
  exact List.dropWhile_get_zero_not _ _ (hlen.trans_le hsub.length_le)

/-- A text without outer blanks is its own trimming. -/
theorem trim_trim (s : String) : trim (trim s) = trim s := by
  have hend : ∀ cs, trimEnd (trimEnd cs) = trimEnd cs := fun cs => List.rdropWhile_idempotent ..
  rw [trim, trim, String.toList_ofList, trimStart_trimEnd_trimStart, hend]

/-- A text without any blank is its own trimming. -/
theorem trim_of_ink {s : String} (h : ∀ c ∈ s.toList, isBlank c = false) : trim s = s := by
  have hstart : trimStart s.toList = s.toList := by
    refine List.dropWhile_eq_self_iff.2 fun hlen => ?_
    simp [h _ (List.getElem_mem hlen)]
  have hend : trimEnd s.toList = s.toList := by
    refine List.rdropWhile_eq_self_iff.2 fun hne => ?_
    simp [h _ (List.getLast_mem hne)]
  rw [trim, hstart, hend, String.ofList_toList]

end Text

namespace Pattern
namespace Node

/-- The node has a text that is read as the node. -/
def IsWellFormed : Node → Prop
  | var name => name ≠ "" ∧ ∀ c ∈ name.toList, Text.isBlank c = false
  | const value => value ≠ "" ∧ Text.trim value = value ∧ value.toList.head? ≠ some '?'

theorem IsWellFormed.parse_text {n : Node} (h : n.IsWellFormed) : parse n.text = .ok n := by
  cases n with
  | var name =>
    obtain ⟨hne, hink⟩ := h
    have htrim : Text.trim (var name).text = (var name).text := by
      refine Text.trim_of_ink fun c hc => ?_
      rw [text, String.toList_append] at hc
      rcases List.mem_append.1 hc with hc | hc
      · rw [List.mem_singleton.1 hc]
        rfl
      · exact hink c hc
    have hname : name.toList ≠ [] := fun hnil => hne (String.toList_eq_nil_iff.1 hnil)
    have hany : name.toList.any Text.isBlank = false := List.any_eq_false.2 (by simpa using hink)
    have hread : ofTrimmed ('?' :: name.toList) = .ok (var name) := by
      rw [ofTrimmed, if_pos rfl, if_neg hname, hany, String.ofList_toList]
      rfl
    have hchars : (var name).text.toList = '?' :: name.toList := String.toList_append
    rw [parse, htrim, hchars, hread]
    rfl
  | const value =>
    obtain ⟨hne, htrim, hhead⟩ := h
    rw [parse, text, htrim]
    cases hvalue : value.toList with
    | nil => exact absurd (String.toList_eq_nil_iff.1 hvalue) hne
    | cons c cs =>
      have hc : c ≠ '?' := fun hc => hhead (by rw [hvalue, hc]; rfl)
      rw [ofTrimmed, if_neg hc, ← hvalue, String.ofList_toList]
      rfl

/-- **Exactly the well-formed nodes are read.** -/
theorem exists_parse_eq_ok {n : Node} : (∃ s, parse s = .ok n) ↔ n.IsWellFormed := by
  refine ⟨?_, fun h => ⟨n.text, h.parse_text⟩⟩
  rintro ⟨s, hs⟩
  have htrim := Text.trim_trim s
  rw [parse] at hs
  cases hchars : (Text.trim s).toList with
  | nil => rw [hchars] at hs; cases hs
  | cons c cs =>
    rw [hchars, ofTrimmed] at hs
    split at hs
    · split at hs
      · cases hs
      · split at hs
        · cases hs
        · next hne hany =>
          cases hs
          refine ⟨fun hempty => hne (String.ofList_eq_empty_iff.1 hempty), fun c hc => ?_⟩
          rw [String.toList_ofList] at hc
          simpa using List.any_eq_false.1 (by simpa using hany) c hc
    · next hmark =>
      cases hs
      have hvalue : Text.trim s = String.ofList (c :: cs) := by rw [← hchars, String.ofList_toList]
      refine ⟨by simp, hvalue ▸ htrim, ?_⟩
      simpa using hmark

end Node
end Pattern
end TripleSql
