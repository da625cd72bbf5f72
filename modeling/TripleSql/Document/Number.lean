/-
# Range of binary64

A decimal number `m · 10^e` rounds to infinity if it is at least `2^1024 - 2^970`, half a step above the largest finite
double `2^1024 - 2^971`. A reader that rounds once asks for just that.

A reader of 64-bit significands rounds three times: it takes digits as long as they fit in 64 bits, rounds what it has to a
double, rounds the power of ten to a double, and rounds their product. Whole digits that do not fit count as zeros, and
those after the point are dropped. Near the limit the two readers differ:

| number | rounded once | significand of 64 bits |
| --- | --- | --- |
| `1.7976931348623157e308` | finite | finite |
| `1.7976931348623158e308` | finite | beyond |
| `179769313486231582e291` | beyond | finite |

Source: the number formats of the libraries that read JSON and YAML.
-/

namespace TripleSql
namespace Document

/-- The least number that is rounded to infinity. -/
def roundsToInfinity : Nat := Nat.pow 2 1024 - Nat.pow 2 970

/-- The number `m · 10^e` is beyond the finite doubles. The bounds on `e` only keep the powers small: a number of fewer
than 309 digits is below, and `10^309` is above. -/
def isBeyondDouble (m : Nat) (e : Int) : Bool :=
  if m = 0 then false
  else match e with
    | .ofNat k => 309 ≤ k || roundsToInfinity ≤ m * Nat.pow 10 k
    | .negSucc k => k < m.log2 && roundsToInfinity * Nat.pow 10 (k + 1) ≤ m

/-- The value of a digit. -/
def digitValue (c : Char) : Nat := c.toNat - '0'.toNat

/-- The number that decimal digits spell. -/
def ofDigits (cs : List Char) : Nat := cs.foldl (fun n c => 10 * n + digitValue c) 0

/-- The nearest number of 53 bits followed by zeros, of two the one whose 53 bits are even. -/
def roundedToDouble (n : Nat) : Nat :=
  let step := Nat.pow 2 (n.log2 - 52)
  let q := n / step
  let r := n % step
  if step < 2 * r || (step = 2 * r && q % 2 = 1) then (q + 1) * step else q * step

/-- The number with digits put after it as long as it stays below `2^64`, and the digits that are left. -/
def fill64 (m : Nat) : List Char → Nat × List Char
  | [] => (m, [])
  | c :: cs => if 10 * m + digitValue c < Nat.pow 2 64 then fill64 (10 * m + digitValue c) cs else (m, c :: cs)

/-- Significand and exponent of a number with digits before and after its point. -/
def significand64 (whole fraction : List Char) : Nat × Int :=
  let (m, dropped) := fill64 0 whole
  let (m, unread) := fill64 m fraction
  (m, dropped.length - (fraction.length - unread.length))

/-- The number `m · 10^e` has no finite product of doubles; no power beyond `10^308` is one. -/
def isBeyondProduct (m : Nat) (e : Int) : Bool :=
  if m = 0 then false
  else match e with
    | .ofNat k => 308 < k || roundsToInfinity ≤ roundedToDouble m * roundedToDouble (Nat.pow 10 k)
    | .negSucc _ => false

end Document
end TripleSql
