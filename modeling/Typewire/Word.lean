/-! # Words

Which whole numbers fit a signed word of 32 or 64 bits. A number that fits is read back unchanged
from its word, and every word holds a number that fits.
-/

namespace Typewire.Word

def fits32 (i : Int) : Bool := Int32.minValue.toInt ≤ i && i ≤ Int32.maxValue.toInt

def fits64 (i : Int) : Bool := Int64.minValue.toInt ≤ i && i ≤ Int64.maxValue.toInt

theorem fits32_iff {i : Int} : fits32 i = true ↔ -2147483648 ≤ i ∧ i ≤ 2147483647 := by
  have hmin : Int32.minValue.toInt = -2147483648 := by decide
  have hmax : Int32.maxValue.toInt = 2147483647 := by decide
  simp [fits32, hmin, hmax]

theorem fits64_iff {i : Int} :
    fits64 i = true ↔ -9223372036854775808 ≤ i ∧ i ≤ 9223372036854775807 := by
  have hmin : Int64.minValue.toInt = -9223372036854775808 := by decide
  have hmax : Int64.maxValue.toInt = 9223372036854775807 := by decide
  simp [fits64, hmin, hmax]

theorem fits64_of_fits32 {i : Int} (h : fits32 i = true) : fits64 i = true := by
  have := fits32_iff.1 h
  exact fits64_iff.2 ⟨by omega, by omega⟩

theorem toInt_ofInt_of_fits32 {i : Int} (h : fits32 i = true) : (Int32.ofInt i).toInt = i := by
  have := fits32_iff.1 h
  exact Int32.toInt_ofInt_of_le (by omega) (by omega)

theorem toInt_ofInt_of_fits64 {i : Int} (h : fits64 i = true) : (Int64.ofInt i).toInt = i := by
  have := fits64_iff.1 h
  exact Int64.toInt_ofInt_of_le (by omega) (by omega)

theorem fits32_toInt (i : Int32) : fits32 i.toInt = true :=
  fits32_iff.2 ⟨i.le_toInt, by have := i.toInt_lt; omega⟩

theorem fits64_toInt (i : Int64) : fits64 i.toInt = true :=
  fits64_iff.2 ⟨i.le_toInt, by have := i.toInt_lt; omega⟩

end Typewire.Word
