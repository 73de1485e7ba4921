import Typewire.Proofs.Codec.Integers

/-! # Numbers that are rejected

A codec of whole numbers rejects a number that is not whole and one that is out of range, and the
error should say which. It does, except beyond 64 bits: there a double that denotes a whole number
counts as a fraction, and the int codec names the range of longs.
-/

namespace Typewire

namespace Scalar

variable {j : Json} {cause : DecodeCause} {q : ℚ}

theorem cases_of_decodeWhole_error (hq : j.number? = some q) (h : decodeWhole j = .error cause) :
    (∃ i, j = .int i ∧ Word.fits64 i = false ∧ cause = .outOfRange i "long") ∨
      ∃ x, j = .real x ∧ (∀ k : Int, q = k → Word.fits64 k = false) ∧
        cause = .unexpectedKind "integer" "fractional number" := by
  cases j with
  | int i =>
    rw [decodeWhole] at h
    split at h
    · cases h
    · rename_i hfits
      cases h
      exact .inl ⟨i, rfl, Bool.eq_false_iff.2 hfits, rfl⟩
  | real x =>
    refine .inr ⟨x, rfl, fun k hk => Bool.eq_false_iff.2 fun hfits => ?_, ?_⟩
    · rw [decodeWhole_eq_ok_iff.2 ⟨hq.trans (congrArg some hk), hfits⟩] at h
      cases h
    · rw [decodeWhole] at h
      split at h
      · split at h
        · cases h
        · cases h
          rfl
      · cases h
        rfl
  | null | bool | str | arr | obj => cases hq

theorem cases_of_decodeAtomic_int_error (h : decodeAtomic .int j = .error cause) :
    decodeWhole j = .error cause ∨
      ∃ k, decodeWhole j = .ok k ∧ Word.fits32 k = false ∧ cause = .outOfRange k "int" := by
  unfold decodeAtomic at h
  split at h
  case h_5 =>
    split at h
    · rename_i k hwhole
      split at h
      · cases h
      · rename_i hfits
        cases h
        exact .inr ⟨k, hwhole, Bool.eq_false_iff.2 hfits, rfl⟩
    · rename_i hwhole
      cases h
      exact .inl hwhole
  all_goals contradiction

end Scalar

namespace Codec

variable {dec : CodecRef → Json → Decoding Value} {scope : Scope} {kind : AtomicKind} {j : Json}
  {q : ℚ} {e : DecodeError}

/-- The error says of a number that it is out of the range of the kind just if it is whole, and that
it has a fraction just if it has one. -/
structure Classifies (kind : AtomicKind) (q : ℚ) (e : DecodeError) : Prop where
  range : (∃ i, e = .here (.outOfRange i kind.name)) ↔ ∃ k : Int, q = k
  fraction : (∃ expected, e = .here (.unexpectedKind expected "fractional number")) ↔
    ¬ ∃ k : Int, q = k

/-- A whole number beyond 64 bits, written as a double or, for the int codec, as a whole number. -/
def Misjudged (kind : AtomicKind) : Json → Prop
  | .int i => kind = .int ∧ Word.fits64 i = false
  | .real x => ∃ k : Int, x.value = k ∧ Word.fits64 k = false
  | _ => False

theorem classifies_range {i : Int} (k : Int) :
    Classifies kind k (.here (.outOfRange i kind.name)) :=
  ⟨iff_of_true ⟨i, rfl⟩ ⟨k, rfl⟩, iff_of_false nofun (not_not.2 ⟨k, rfl⟩)⟩

theorem classifies_fraction_iff {expected : String} :
    Classifies kind q (.here (.unexpectedKind expected "fractional number")) ↔
      ¬ ∃ k : Int, q = k :=
  ⟨fun h => h.fraction.1 ⟨expected, rfl⟩,
    fun h => ⟨iff_of_false nofun h, iff_of_true ⟨expected, rfl⟩ h⟩⟩

theorem not_classifies_other {i k : Int} (hkind : kind.name ≠ "long") :
    ¬ Classifies kind k (.here (.outOfRange i "long")) := by
  intro h
  obtain ⟨_, heq⟩ := h.range.2 ⟨k, rfl⟩
  exact hkind (DecodeCause.outOfRange.inj (Located.mk.inj heq).2).2.symm

theorem error_of_decodeWith_atomic (h : (atomic kind).decodeWith dec scope j = .error e) :
    ∃ cause, Scalar.decodeAtomic kind j = .error cause ∧ e = .here cause := by
  rw [decodeWith] at h
  cases hdec : Scalar.decodeAtomic kind j with
  | error cause =>
    rw [hdec] at h
    cases h
    exact ⟨cause, rfl, rfl⟩
  | ok v =>
    rw [hdec] at h
    cases h

/-- Why a codec of whole numbers rejects a number: it fits 64 bits and not the kind, or is beyond 64
bits, or has a fraction. -/
theorem cases_of_rejected (hkind : kind = .int ∨ kind = .long) (hq : j.number? = some q)
    (h : (atomic kind).decodeWith dec scope j = .error e) :
    (∃ k : Int, q = k ∧ Word.fits64 k = true ∧ e = .here (.outOfRange k kind.name)) ∨
      (∃ i, j = .int i ∧ Word.fits64 i = false ∧ e = .here (.outOfRange i "long")) ∨
      ∃ x, j = .real x ∧ (∀ k : Int, q = k → Word.fits64 k = false) ∧
        e = .here (.unexpectedKind "integer" "fractional number") := by
  obtain ⟨cause, hcause, rfl⟩ := error_of_decodeWith_atomic h
  have hwhole : Scalar.decodeWhole j = .error cause ∨
      ∃ k : Int, q = k ∧ Word.fits64 k = true ∧ cause = .outOfRange k kind.name := by
    rcases hkind with rfl | rfl
    · refine (Scalar.cases_of_decodeAtomic_int_error hcause).imp_right ?_
      rintro ⟨k, hk, -, rfl⟩
      obtain ⟨hk, hfits⟩ := Scalar.decodeWhole_eq_ok_iff.1 hk
      exact ⟨k, Option.some.inj (hq.symm.trans hk), hfits, rfl⟩
    · rw [Scalar.decodeAtomic] at hcause
      cases hw : Scalar.decodeWhole j with
      | error c =>
        rw [hw] at hcause
        cases hcause
        exact .inl rfl
      | ok k =>
        rw [hw] at hcause
        cases hcause
  rcases hwhole with hwhole | ⟨k, hk, hfits, rfl⟩
  · refine .inr ((Scalar.cases_of_decodeWhole_error hq hwhole).imp ?_ ?_)
    · rintro ⟨i, hi, hfits, rfl⟩
      exact ⟨i, hi, hfits, rfl⟩
    · rintro ⟨x, hx, hfits, rfl⟩
      exact ⟨x, hx, hfits, rfl⟩
  · exact .inl ⟨k, hk, hfits, rfl⟩

theorem value_of_number? {x : Binary64} (h : (Json.real x).number? = some q) : x.value = q := by
  rw [Json.number?] at h
  split at h
  · exact Option.some.inj h
  · cases h

/-- The error for a rejected number says why it was rejected, unless the number is whole and beyond
64 bits: written as a double it is said to have a fraction, and written as a whole number it is said
to be no long. -/
theorem rejection_classified_iff (hkind : kind = .int ∨ kind = .long) (hq : j.number? = some q)
    (h : (atomic kind).decodeWith dec scope j = .error e) :
    (Classifies kind q e ↔ ¬ Misjudged kind j) ∧
      (∀ x, j = .real x → Misjudged kind j →
        e = .here (.unexpectedKind "integer" "fractional number")) ∧
      ∀ i, j = .int i → Misjudged kind j → e = .here (.outOfRange i "long") := by
  rcases cases_of_rejected hkind hq h with ⟨k, rfl, hfits, rfl⟩ | ⟨i, rfl, hfits, rfl⟩ |
    ⟨x, rfl, hfits, rfl⟩
  · have hjudged : ¬ Misjudged kind j := by
      intro hm
      cases j with
      | int i =>
        obtain rfl : i = k := Int.cast_injective (Option.some.inj hq)
        rw [hm.2] at hfits
        cases hfits
      | real x =>
        obtain ⟨k', hk', hfits'⟩ := hm
        obtain rfl : k' = k := Int.cast_injective (hk'.symm.trans (value_of_number? hq))
        rw [hfits'] at hfits
        cases hfits
      | null | bool | str | arr | obj => exact hm
    exact ⟨iff_of_true (classifies_range k) hjudged, fun _ _ hm => absurd hm hjudged,
      fun _ _ hm => absurd hm hjudged⟩
  · obtain rfl : (i : ℚ) = q := Option.some.inj hq
    refine ⟨?_, nofun, ?_⟩
    · rcases hkind with rfl | rfl
      · exact iff_of_false (not_classifies_other (by decide)) (not_not.2 ⟨rfl, hfits⟩)
      · exact iff_of_true (classifies_range i) fun hm => nomatch hm.1
    · rintro _ ⟨⟩ -
      rfl
  · refine ⟨?_, fun _ _ _ => rfl, nofun⟩
    rw [classifies_fraction_iff, Misjudged, value_of_number? hq]
    refine not_congr (exists_congr fun k => (and_iff_left_of_imp ?_).symm)
    exact hfits k

def noNested : CodecRef → Json → Decoding Value := fun ref _ => .fail (.unresolved ref.term)

def noScope : Scope := ⟨fun _ _ => false, fun _ => false⟩

theorem rejection_classified_iff_three_halves : ∃ e,
    (atomic .int).decodeWith noNested noScope (.real (.ofRatio false 3 2)) = .error e ∧
      (Json.real (.ofRatio false 3 2)).number? = some (Binary64.ofRatio false 3 2).value ∧
      Classifies .int (Binary64.ofRatio false 3 2).value e := by
  have hfraction : (Binary64.ofRatio false 3 2).toInt? = none := by decide +kernel
  have hfinite : (Binary64.ofRatio false 3 2).isFinite = true := by decide +kernel
  have hrejected : (atomic .int).decodeWith noNested noScope (.real (.ofRatio false 3 2)) =
      .error (.here (.unexpectedKind "integer" "fractional number")) := by
    rw [decodeWith, Scalar.decodeAtomic, Scalar.decodeWhole, hfraction]
    rfl
  have hjudged : ¬ Misjudged .int (.real (.ofRatio false 3 2)) := by
    rintro ⟨k, hk, -⟩
    rw [Binary64.toInt?_eq_some_iff.2 ⟨hfinite, hk⟩] at hfraction
    cases hfraction
  have hnumber : (Json.real (.ofRatio false 3 2)).number? =
      some (Binary64.ofRatio false 3 2).value := by
    rw [Json.number?, if_pos hfinite]
  exact ⟨_, hrejected, hnumber,
    (rejection_classified_iff (.inl rfl) hnumber hrejected).1.2 hjudged⟩

/-- The greatest natural number of 64 bits is refused as an int because it is no long. The double
after the greatest long is refused as a long because it has a fraction. -/
theorem not_classifies_beyond_long :
    ((atomic .int).decodeWith noNested noScope (.int 18446744073709551615) =
        .error (.here (.outOfRange 18446744073709551615 "long")) ∧
      (Json.int 18446744073709551615).number? = some ((18446744073709551615 : Int) : ℚ) ∧
      ¬ Classifies .int (18446744073709551615 : Int)
        (.here (.outOfRange 18446744073709551615 "long"))) ∧
    (atomic .long).decodeWith noNested noScope (.real (.ofInt 9223372036854775808)) =
        .error (.here (.unexpectedKind "integer" "fractional number")) ∧
      (Json.real (.ofInt 9223372036854775808)).number? = some ((9223372036854775808 : Int) : ℚ) ∧
      ¬ Classifies .long (9223372036854775808 : Int)
        (.here (.unexpectedKind "integer" "fractional number")) := by
  have hwhole : (Binary64.ofInt 9223372036854775808).toInt? = some 9223372036854775808 := by
    decide +kernel
  obtain ⟨hfinite, hvalue⟩ := Binary64.toInt?_eq_some_iff.1 hwhole
  refine ⟨⟨rfl, rfl, not_classifies_other (by decide)⟩, ?_, ?_, ?_⟩
  · rw [decodeWith, Scalar.decodeAtomic, Scalar.decodeWhole, hwhole]
    rfl
  · rw [Json.number?, if_pos hfinite, hvalue]
  · exact fun h => classifies_fraction_iff.1 h ⟨_, rfl⟩

end Codec

end Typewire
