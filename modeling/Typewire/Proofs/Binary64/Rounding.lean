import Mathlib.Tactic.Common
import Typewire.Binary64.Rounding

/-! # Rounding whole numbers

Whole numbers of 64 bits are far below the greatest finite number, so they round to finite numbers.
-/

namespace Typewire.Binary64

theorem isFinite_ofParts {negative : Bool} {magnitude : Nat} (h : magnitude < 2047 <<< 52) :
    (ofParts negative magnitude).isFinite = true := by
  have hbits : (ofParts negative magnitude).bits.toNat =
      (if negative then 1 <<< 63 else 0) + magnitude := by
    rw [ofParts, UInt64.toNat_ofNat']
    split <;> omega
  rw [isFinite, exponentField, hbits, decide_eq_true_iff, Nat.shiftRight_eq_div_pow]
  split <;> omega

theorem roundRatio_le (num den : Nat) : roundRatio num den ≤ num / den + 1 := by
  rw [roundRatio]
  split <;> omega

theorem scaled_of_nonneg {num den : Nat} {e : Int} (h : 0 ≤ e) :
    scaled num den e = (num, den <<< e.toNat) := if_pos h

theorem scaled_of_neg {num den : Nat} {e : Int} (h : e < 0) :
    scaled num den e = (num <<< (-e).toNat, den) := if_neg (by omega)

/-- A whole number in units of its last place. One place more than needed does no harm. -/
theorem quotient_scaled_lt {num : Nat} {place : Int} (h : (num.log2 : Int) - 53 ≤ place) :
    (scaled num 1 place).1 / (scaled num 1 place).2 < 1 <<< 54 := by
  rw [Nat.one_shiftLeft]
  have hnum : num < 2 ^ (num.log2 + 1) := Nat.lt_log2_self
  rcases Int.lt_or_le place 0 with hneg | hpos
  · rw [scaled_of_neg hneg, Nat.div_one, Nat.shiftLeft_eq]
    calc num * 2 ^ (-place).toNat < 2 ^ (num.log2 + 1) * 2 ^ (-place).toNat := by
          exact Nat.mul_lt_mul_of_pos_right hnum (Nat.two_pow_pos _)
      _ = 2 ^ (num.log2 + 1 + (-place).toNat) := (Nat.pow_add 2 _ _).symm
      _ ≤ 2 ^ 54 := Nat.pow_le_pow_right (by decide) (by omega)
  · rw [scaled_of_nonneg hpos, Nat.shiftLeft_eq, Nat.one_mul,
      Nat.div_lt_iff_lt_mul (Nat.two_pow_pos _), ← Nat.pow_add]
    exact Nat.lt_of_lt_of_le hnum (Nat.pow_le_pow_right (by decide) (by omega))

theorem lastPlace_bounds (num : Nat) (h : num < 1 <<< 64) :
    (num.log2 : Int) - 53 ≤ lastPlace num 1 ∧ lastPlace num 1 ≤ 11 := by
  have hlog : num.log2 < 64 := by
    rcases Nat.eq_zero_or_pos num with rfl | hpos
    · decide
    · exact (Nat.log2_lt (Nat.ne_of_gt hpos)).2 h
  have hone : Nat.log2 1 = 0 := by decide
  simp only [lastPlace, hone]
  split <;> omega

theorem ofRatio_of_ne_zero {num den : Nat} (h : num ≠ 0) (negative : Bool) :
    ofRatio negative num den = ofParts negative (min
      (((lastPlace num den + 1074).toNat <<< 52) +
        roundRatio (scaled num den (lastPlace num den)).1 (scaled num den (lastPlace num den)).2)
      (2047 <<< 52)) := if_neg h

theorem isFinite_ofInt {i : Int} (h : i.natAbs < 1 <<< 64) : (ofInt i).isFinite = true := by
  rw [ofInt]
  by_cases hi : i.natAbs = 0
  · rw [hi, ofRatio, if_pos rfl]
    exact isFinite_ofParts (by decide)
  · rw [ofRatio_of_ne_zero hi]
    obtain ⟨hlow, hhigh⟩ := lastPlace_bounds i.natAbs h
    have hquotient := quotient_scaled_lt hlow
    have hround := roundRatio_le (scaled i.natAbs 1 (lastPlace i.natAbs 1)).1
      (scaled i.natAbs 1 (lastPlace i.natAbs 1)).2
    have hplace : (lastPlace i.natAbs 1 + 1074).toNat ≤ 1085 := by omega
    refine isFinite_ofParts (Nat.lt_of_le_of_lt (Nat.min_le_left _ _) ?_)
    rw [Nat.shiftLeft_eq]
    omega

end Typewire.Binary64
