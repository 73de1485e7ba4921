import Typewire.Binary64

/-! # The fewest digits that read back

Of all decimals that round to a number, those with the fewest digits, of those the nearest, and of
two as near the one with an even last digit. For each count of digits only the two neighbours of the
value on that decimal grid need a test.
-/

namespace Typewire.Binary64

def decimalSize (n : Nat) : Nat := (Nat.toDigits 10 n).length

/-- Numbers in quarters of the last place: the value, and the ends of what rounds to it. -/
structure Span where
  low : Nat
  value : Nat
  high : Nat
  den : Nat
  closed : Bool

def span (x : Binary64) : Span :=
  let m := 4 * x.significand
  let low := if x.fraction = 0 ∧ 1 < x.exponentField then m - 1 else m - 2
  let e := x.exponent - 2
  let up := e.toNat
  ⟨low <<< up, m <<< up, (m + 2) <<< up, 1 <<< (-e).toNat, x.significand % 2 = 0⟩

/-- Whether `digits * 10 ^ e` rounds to the number. -/
def Span.holds (s : Span) (digits : Nat) (e : Int) : Bool :=
  let c := digits * Nat.pow 10 e.toNat * s.den
  let up := Nat.pow 10 (-e).toNat
  let (low, high) := (s.low * up, s.high * up)
  (low < c && c < high) || (s.closed && (c = low || c = high))

def Span.leading (s : Span) : Int :=
  if s.den ≤ s.value then (decimalSize (s.value / s.den) : Int) - 1
  else -(decimalSize ((s.den + s.value - 1) / s.value - 1) : Int)

/-- The best decimal with its last digit at `10 ^ e`, if one reads back. -/
def Span.candidate? (s : Span) (e : Int) : Option Nat :=
  let num := s.value * Nat.pow 10 (-e).toNat
  let den := s.den * Nat.pow 10 e.toNat
  let down := num / den
  let rest := 2 * (num % den)
  let nearer :=
    if rest < den ∨ (rest = den ∧ down % 2 = 0) then [down, down + 1] else [down + 1, down]
  nearer.find? fun digits => 0 < digits && s.holds digits e

/-- Digits and the exponent of the last one, for a finite number other than zero. -/
def shortest (x : Binary64) : Nat × Int :=
  let s := x.span
  let found := (List.range 17).findSome? fun (n : Nat) =>
    let e := s.leading - n
    (s.candidate? e).map fun digits => (digits, e)
  found.getD (x.significand, x.exponent)

def trimZeros : Nat → Nat × Int → Nat × Int
  | 0, d => d
  | n + 1, (digits, e) =>
    if digits ≠ 0 ∧ digits % 10 = 0 then trimZeros n (digits / 10, e + 1) else (digits, e)

end Typewire.Binary64
