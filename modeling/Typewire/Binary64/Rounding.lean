import Typewire.Binary64

/-! # Rounding to the nearest number

A ratio of natural numbers goes to the nearest representable number, a tie to the one with the even
significand, and a ratio beyond the greatest finite number to infinity.
-/

namespace Typewire.Binary64

/-- The whole number nearest to `num / den`, of two the even one. -/
def roundRatio (num den : Nat) : Nat :=
  let down := num / den
  let rest := 2 * (num % den)
  if rest < den ∨ (rest = den ∧ down % 2 = 0) then down else down + 1

/-- Compare with a power of two on either side: the ratio `num / (den * 2 ^ e)`. -/
def scaled (num den : Nat) (e : Int) : Nat × Nat :=
  if 0 ≤ e then (num, den <<< e.toNat) else (num <<< (-e).toNat, den)

/-- The exponent of the last place for a ratio: 53 places, but none below `2 ^ -1074`. -/
def lastPlace (num den : Nat) : Int :=
  let guess : Int := (num.log2 : Int) - den.log2 - 52
  let (n, d) := scaled num den guess
  max (if n / d < 1 <<< 52 then guess - 1 else guess) (-1074)

def ofRatio (negative : Bool) (num den : Nat) : Binary64 :=
  if num = 0 then zero negative
  else
    let place := lastPlace num den
    let (n, d) := scaled num den place
    let magnitude := ((place + 1074).toNat <<< 52) + roundRatio n d
    ofParts negative (min magnitude (2047 <<< 52))

def ofInt (i : Int) : Binary64 := ofRatio (i < 0) i.natAbs 1

/-- The number nearest to `digits * 10 ^ e`. The first two tests only spare the large powers: such
values lie beyond the greatest number or below half the least one. -/
def ofDecimal (negative : Bool) (digits : Nat) (e : Int) : Binary64 :=
  let size : Int := (Nat.toDigits 10 digits).length
  if digits = 0 then zero negative
  else if 400 < size + e then infinity negative
  else if size + e < -400 then zero negative
  else if 0 ≤ e then ofRatio negative (digits * Nat.pow 10 e.toNat) 1
  else ofRatio negative digits (Nat.pow 10 (-e).toNat)

end Typewire.Binary64
