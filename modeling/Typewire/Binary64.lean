/-! # Binary floating point numbers of 64 bits

A number is its bit pattern. Every finite one denotes the exact value
`± significand * 2 ^ exponent`, so that comparisons and conversions stay in whole numbers.
-/

namespace Typewire

structure Binary64 where
  bits : UInt64
  deriving DecidableEq, Repr

namespace Binary64

def negative (x : Binary64) : Bool := 1 <<< 63 ≤ x.bits.toNat

def exponentField (x : Binary64) : Nat := (x.bits.toNat >>> 52) % 2048

def fraction (x : Binary64) : Nat := x.bits.toNat % (1 <<< 52)

def isFinite (x : Binary64) : Bool := x.exponentField ≠ 2047

def isNaN (x : Binary64) : Bool := x.exponentField = 2047 && x.fraction ≠ 0

def isZero (x : Binary64) : Bool := x.exponentField = 0 && x.fraction = 0

def significand (x : Binary64) : Nat :=
  if x.exponentField = 0 then x.fraction else (1 <<< 52) + x.fraction

def exponent (x : Binary64) : Int := (max x.exponentField 1 : Nat) - 1075

def ofParts (negative : Bool) (magnitude : Nat) : Binary64 :=
  ⟨UInt64.ofNat ((if negative then 1 <<< 63 else 0) + magnitude)⟩

def zero (negative : Bool) : Binary64 := ofParts negative 0

def infinity (negative : Bool) : Binary64 := ofParts negative (2047 <<< 52)

/-- Equality of numbers: zeros of both signs are equal, and no number that is not one is equal to
anything. -/
def agrees (x y : Binary64) : Bool := !x.isNaN && !y.isNaN && (x = y || x.isZero && y.isZero)

def toInt? (x : Binary64) : Option Int :=
  if !x.isFinite then none
  else
    let sign : Int := if x.negative then -1 else 1
    if 0 ≤ x.exponent then some (sign * (x.significand <<< x.exponent.toNat : Nat))
    else
      let unit := 1 <<< (-x.exponent).toNat
      if x.significand % unit = 0 then some (sign * (x.significand / unit : Nat)) else none

def specialName (x : Binary64) : String :=
  if x.isNaN then "NaN" else if x.negative then "-inf" else "inf"

end Binary64

end Typewire
