import Mathlib.Tactic.NormNum
import Mathlib.Tactic.Ring
import Typewire.Binary64.Rounding

/-! # What a number denotes

The bits of a finite number denote a rational number. The conversion to whole numbers gives that
number where it is whole, and nothing elsewhere.
-/

namespace Typewire.Binary64

variable {x : Binary64} {i : Int}

def sign (x : Binary64) : Int := if x.negative then -1 else 1

/-- The rational number that the bits of a finite number denote. -/
def value (x : Binary64) : ℚ := x.sign * (x.significand * 2 ^ x.exponent)

theorem sign_mul_self (x : Binary64) : x.sign * x.sign = 1 := by
  unfold sign
  split <;> rfl

theorem value_of_nonneg (h : 0 ≤ x.exponent) :
    x.value = (x.sign * (x.significand <<< x.exponent.toNat : Nat) : Int) := by
  have hexp : (2 : ℚ) ^ x.exponent = 2 ^ x.exponent.toNat := by
    rw [← zpow_natCast, Int.toNat_of_nonneg h]
  rw [value, hexp, Nat.shiftLeft_eq]
  push_cast
  ring

theorem value_mul_unit (h : x.exponent < 0) :
    x.value * (1 <<< (-x.exponent).toNat : Nat) = (x.sign * x.significand : Int) := by
  have hexp : ((1 <<< (-x.exponent).toNat : Nat) : ℚ) = 2 ^ (-x.exponent) := by
    rw [Nat.one_shiftLeft, Nat.cast_pow, ← zpow_natCast, Int.toNat_of_nonneg (by omega)]
    rfl
  have hcancel : (2 : ℚ) ^ x.exponent * 2 ^ (-x.exponent) = 1 := by
    rw [← zpow_add₀ two_ne_zero, add_neg_cancel, zpow_zero]
  calc x.value * (1 <<< (-x.exponent).toNat : Nat)
      = x.sign * x.significand * (2 ^ x.exponent * 2 ^ (-x.exponent)) := by
        rw [value, hexp]
        ring
    _ = (x.sign * x.significand : Int) := by
        rw [hcancel, mul_one]
        push_cast
        rfl

theorem value_eq_iff_of_neg (h : x.exponent < 0) :
    x.value = i ↔ x.sign * x.significand = i * (1 <<< (-x.exponent).toNat : Nat) := by
  have hunit : ((1 <<< (-x.exponent).toNat : Nat) : ℚ) ≠ 0 := by
    rw [Nat.one_shiftLeft]
    exact_mod_cast (Nat.two_pow_pos _).ne'
  rw [← mul_left_inj' hunit, value_mul_unit h]
  generalize 1 <<< (-x.exponent).toNat = unit
  exact_mod_cast Iff.rfl

theorem wholes_eq_some_iff {s : Int} {count unit : Nat} (hs : s * s = 1) (hunit : 0 < unit) :
    (if count % unit = 0 then some (s * (count / unit : Nat)) else none) = some i ↔
      s * count = i * unit := by
  split
  · rename_i hdvd
    obtain ⟨q, rfl⟩ := Nat.dvd_of_mod_eq_zero hdvd
    have hne : (unit : Int) ≠ 0 := by exact_mod_cast hunit.ne'
    rw [Nat.mul_div_cancel_left q hunit, Option.some_inj, Nat.cast_mul, mul_left_comm,
      mul_comm i, mul_right_inj' hne]
  · rename_i hdvd
    refine ⟨nofun, fun hi => absurd (Nat.mod_eq_zero_of_dvd ?_) hdvd⟩
    have hcount : (count : Int) = unit * (s * i) := by
      calc (count : Int) = s * s * count := by rw [hs, one_mul]
        _ = s * (i * unit) := by rw [mul_assoc, hi]
        _ = unit * (s * i) := by ring
    exact_mod_cast Dvd.intro _ hcount.symm

/-- The conversion to a whole number gives what the number denotes. -/
theorem toInt?_eq_some_iff : x.toInt? = some i ↔ x.isFinite = true ∧ x.value = i := by
  by_cases hfinite : x.isFinite = true
  · rw [toInt?, if_neg (by simp [hfinite]), and_iff_right hfinite]
    by_cases hexp : 0 ≤ x.exponent
    · simp only [if_pos hexp]
      rw [Option.some_inj, value_of_nonneg hexp, Int.cast_inj, sign]
    · simp only [if_neg hexp]
      rw [value_eq_iff_of_neg (by omega)]
      refine wholes_eq_some_iff x.sign_mul_self ?_
      rw [Nat.one_shiftLeft]
      exact Nat.two_pow_pos _
  · rw [toInt?, if_pos (by simpa using hfinite)]
    exact ⟨nofun, fun h => absurd h.1 hfinite⟩

end Typewire.Binary64
