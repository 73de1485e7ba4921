import Typewire.Proofs.Binary64.Value
import Typewire.Proofs.Codec.Inversion

/-! # Whole numbers at the limits

A whole number may be written as one or as a double. In either way it is read by the number it
denotes, up to the limits of its type and not beyond.
-/

namespace Typewire

/-- The rational number that a document denotes, if it is a number. -/
def Json.number? : Json → Option ℚ
  | .int i => some i
  | .real x => if x.isFinite then some x.value else none
  | _ => none

namespace Scalar

variable {j : Json} {k : Int} {v : Value}

theorem decodeWhole_eq_ok_iff :
    decodeWhole j = .ok k ↔ j.number? = some (k : ℚ) ∧ Word.fits64 k = true := by
  cases j with
  | int i =>
    rw [Json.number?, Option.some_inj, Int.cast_inj, decodeWhole]
    constructor
    · intro h
      split at h
      · rename_i hfits
        cases h
        exact ⟨rfl, hfits⟩
      · cases h
    · rintro ⟨rfl, hfits⟩
      rw [if_pos hfits]
  | real x =>
    -- A double denotes a whole number where its conversion gives one.
    have hwhole : (Json.real x).number? = some (k : ℚ) ↔ x.toInt? = some k := by
      rw [Binary64.toInt?_eq_some_iff, Json.number?]
      split <;> simp [*]
    rw [hwhole, decodeWhole]
    constructor
    · intro h
      split at h
      · rename_i i hi
        split at h
        · rename_i hfits
          cases h
          exact ⟨hi, hfits⟩
        · cases h
      · cases h
    · rintro ⟨hk, hfits⟩
      simp only [hk, if_pos hfits]
  | null | bool | str | arr | obj =>
    constructor
    · intro h
      cases h
    · rintro ⟨h, -⟩
      cases h

theorem decodeAtomic_int_eq_ok_iff : decodeAtomic .int j = .ok v ↔
    ∃ k : Int, j.number? = some (k : ℚ) ∧ Word.fits32 k = true ∧ v = .int (.ofInt k) := by
  constructor
  · intro h
    unfold decodeAtomic at h
    split at h
    case h_5 =>
      split at h
      · rename_i k hwhole
        split at h
        · rename_i hfits
          cases h
          exact ⟨k, (decodeWhole_eq_ok_iff.1 hwhole).1, hfits, rfl⟩
        · cases h
      · cases h
    all_goals contradiction
  · rintro ⟨k, hk, hfits, rfl⟩
    have hwhole := decodeWhole_eq_ok_iff.2 ⟨hk, Word.fits64_of_fits32 hfits⟩
    simp only [decodeAtomic, hwhole, if_pos hfits]

theorem decodeAtomic_long_eq_ok_iff : decodeAtomic .long j = .ok v ↔
    ∃ k : Int, j.number? = some (k : ℚ) ∧ Word.fits64 k = true ∧ v = .long (.ofInt k) := by
  constructor
  · intro h
    obtain ⟨k, hwhole, rfl⟩ := Except.exists_of_map h
    obtain ⟨hk, hfits⟩ := decodeWhole_eq_ok_iff.1 hwhole
    exact ⟨k, hk, hfits, rfl⟩
  · rintro ⟨k, hk, hfits, rfl⟩
    rw [decodeAtomic, decodeWhole_eq_ok_iff.2 ⟨hk, hfits⟩]
    rfl

/-- The greatest long is rounded up as a double, out of the range. -/
example : (decodeAtomic .long (.real (.ofInt Int64.maxValue.toInt))).isOk = false := by
  decide +kernel

end Scalar

namespace Codec

variable {dec : CodecRef → Json → Decoding Value} {scope : Scope} {kind : AtomicKind} {j : Json}
  {v : Value} {k : Int}

theorem decodeWith_atomic_eq_ok_iff :
    (atomic kind).decodeWith dec scope j = .ok v ↔ Scalar.decodeAtomic kind j = .ok v := by
  refine ⟨Decoding.eq_of_ofExcept, fun h => ?_⟩
  rw [decodeWith, h]
  rfl

theorem fits32_iff_range : Word.fits32 k = true ↔ -2 ^ 31 ≤ k ∧ k < 2 ^ 31 := by
  rw [Word.fits32_iff]
  omega

theorem fits64_iff_range : Word.fits64 k = true ↔ -2 ^ 63 ≤ k ∧ k < 2 ^ 63 := by
  rw [Word.fits64_iff]
  omega

theorem decodes_int_iff :
    (∃ w : Int32, w.toInt = k ∧ (atomic .int).decodeWith dec scope j = .ok (.int w)) ↔
      j.number? = some (k : ℚ) ∧ -2 ^ 31 ≤ k ∧ k < 2 ^ 31 := by
  simp only [← fits32_iff_range, decodeWith_atomic_eq_ok_iff, Scalar.decodeAtomic_int_eq_ok_iff]
  constructor
  · rintro ⟨w, rfl, i, hi, hfits, hw⟩
    cases hw
    rw [Word.toInt_ofInt_of_fits32 hfits]
    exact ⟨hi, hfits⟩
  · rintro ⟨hk, hfits⟩
    exact ⟨.ofInt k, Word.toInt_ofInt_of_fits32 hfits, k, hk, hfits, rfl⟩

theorem decodes_long_iff :
    (∃ w : Int64, w.toInt = k ∧ (atomic .long).decodeWith dec scope j = .ok (.long w)) ↔
      j.number? = some (k : ℚ) ∧ -2 ^ 63 ≤ k ∧ k < 2 ^ 63 := by
  simp only [← fits64_iff_range, decodeWith_atomic_eq_ok_iff, Scalar.decodeAtomic_long_eq_ok_iff]
  constructor
  · rintro ⟨w, rfl, i, hi, hfits, hw⟩
    cases hw
    rw [Word.toInt_ofInt_of_fits64 hfits]
    exact ⟨hi, hfits⟩
  · rintro ⟨hk, hfits⟩
    exact ⟨.ofInt k, Word.toInt_ofInt_of_fits64 hfits, k, hk, hfits, rfl⟩

theorem decodes_int_toInt (w : Int32) :
    (atomic .int).decodeWith dec scope (.int w.toInt) = .ok (.int w) := by
  rw [decodeWith_atomic_eq_ok_iff, Scalar.decodeAtomic_int_eq_ok_iff]
  exact ⟨w.toInt, rfl, Word.fits32_toInt w, by rw [Int32.ofInt_toInt]⟩

theorem decodes_long_toInt (w : Int64) :
    (atomic .long).decodeWith dec scope (.int w.toInt) = .ok (.long w) := by
  rw [decodeWith_atomic_eq_ok_iff, Scalar.decodeAtomic_long_eq_ok_iff]
  exact ⟨w.toInt, rfl, Word.fits64_toInt w, by rw [Int64.ofInt_toInt]⟩

theorem rejects_iff {fits : Int → Prop} (h : ∀ v, (atomic kind).decodeWith dec scope j = .ok v →
      ∃ k : Int, j.number? = some (k : ℚ) ∧ fits k)
    (h' : ∀ k : Int, j.number? = some (k : ℚ) → fits k →
      ∃ v, (atomic kind).decodeWith dec scope j = .ok v) :
    (∃ e, (atomic kind).decodeWith dec scope j = .error e) ↔
      ¬ ∃ k : Int, j.number? = some (k : ℚ) ∧ fits k := by
  cases hdec : (atomic kind).decodeWith dec scope j with
  | error e =>
    refine ⟨fun _ hk => ?_, fun _ => ⟨e, rfl⟩⟩
    obtain ⟨k, hk, hfits⟩ := hk
    obtain ⟨v, hv⟩ := h' k hk hfits
    cases hdec.symm.trans hv
  | ok v => exact ⟨nofun, fun hnone => absurd (h v hdec) hnone⟩

/-- Whole numbers are read exactly, in every form, up to the limits of the type and not beyond, and
what is written for one is read as the same one. -/
theorem integers_exact (enc : CodecRef → Value → Encoding Json)
    (dec : CodecRef → Json → Decoding Value) (scope : Scope) :
    (∀ (j : Json) (k : Int),
      ((∃ w : Int32, w.toInt = k ∧ (atomic .int).decodeWith dec scope j = .ok (.int w)) ↔
        j.number? = some (k : ℚ) ∧ -2 ^ 31 ≤ k ∧ k < 2 ^ 31) ∧
      ((∃ w : Int64, w.toInt = k ∧ (atomic .long).decodeWith dec scope j = .ok (.long w)) ↔
        j.number? = some (k : ℚ) ∧ -2 ^ 63 ≤ k ∧ k < 2 ^ 63)) ∧
    (∀ j : Json,
      ((∃ e, (atomic .int).decodeWith dec scope j = .error e) ↔
        ¬ ∃ k : Int, j.number? = some (k : ℚ) ∧ -2 ^ 31 ≤ k ∧ k < 2 ^ 31) ∧
      ((∃ e, (atomic .long).decodeWith dec scope j = .error e) ↔
        ¬ ∃ k : Int, j.number? = some (k : ℚ) ∧ -2 ^ 63 ≤ k ∧ k < 2 ^ 63)) ∧
    (∀ w : Int32, ∃ j, (atomic .int).encodeWith enc scope (.int w) = pure j ∧
      (atomic .int).decodeWith dec scope j = .ok (.int w)) ∧
    (∀ w : Int64, ∃ e, (atomic .int).encodeWith enc scope (.long w) = Encoding.fail e) ∧
    (∀ v : Value, ∀ n : Int64, v.asLong? = some n →
      ∃ j, (atomic .long).encodeWith enc scope v = pure j ∧
        (atomic .long).decodeWith dec scope j = .ok (.long n)) := by
  refine ⟨fun j k => ⟨decodes_int_iff, decodes_long_iff⟩, fun j => ⟨?_, ?_⟩,
    fun w => ⟨_, rfl, decodes_int_toInt w⟩, fun w => ⟨_, rfl⟩, fun v n hn => ?_⟩
  · refine rejects_iff (fun v hv => ?_) fun k hk hrange => ?_
    · obtain ⟨k, hk, hfits, -⟩ :=
        Scalar.decodeAtomic_int_eq_ok_iff.1 (decodeWith_atomic_eq_ok_iff.1 hv)
      exact ⟨k, hk, fits32_iff_range.1 hfits⟩
    · obtain ⟨w, -, hw⟩ := decodes_int_iff.2 ⟨hk, hrange⟩
      exact ⟨_, hw⟩
  · refine rejects_iff (fun v hv => ?_) fun k hk hrange => ?_
    · obtain ⟨k, hk, hfits, -⟩ :=
        Scalar.decodeAtomic_long_eq_ok_iff.1 (decodeWith_atomic_eq_ok_iff.1 hv)
      exact ⟨k, hk, fits64_iff_range.1 hfits⟩
    · obtain ⟨w, -, hw⟩ := decodes_long_iff.2 ⟨hk, hrange⟩
      exact ⟨_, hw⟩
  · cases v with
    | int i =>
      cases hn
      refine ⟨.int i.toInt, rfl, ?_⟩
      rw [← Int32.toInt_toInt64]
      exact decodes_long_toInt i.toInt64
    | long i =>
      cases hn
      exact ⟨.int n.toInt, rfl, decodes_long_toInt n⟩
    | _ => cases hn

end Codec

end Typewire
