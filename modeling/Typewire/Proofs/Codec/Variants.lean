import Typewire.Proofs.Codec.RoundTrip

/-! # The variants of a union

A document goes to a variant if it names no other. A value goes to the first variant that it is an
instance of.
-/

namespace Typewire

theorem Decoding.under_ne_fail {α : Type} (step : Step) (x : Decoding α) (cause : DecodeCause) :
    x.under step ≠ .fail cause := by
  cases x with
  | error e => exact fun h => by cases h
  | ok a => exact fun h => by cases h

/-- What stands after a step into a part does not fail at the place itself, if it does not fail by
itself. -/
theorem Encoding.under_bind_ne_fail {α β : Type} (step : Step) (x : Encoding α) (f : α → β)
    (cause : EncodeCause) : (x.under step >>= fun a => pure (f a)) ≠ Encoding.fail cause := by
  rcases x with _ | e | a
  · exact fun h => by cases h
  · exact fun h => by cases h
  · exact fun h => by cases h

theorem existsUnique_iff_filter {α : Type} {l : List α} (h : l.Nodup) {p : α → Bool} :
    (∃! a, a ∈ l ∧ p a = true) ↔ ∃ a, l.filter p = [a] := by
  constructor
  · rintro ⟨a, ⟨ha, hp⟩, hone⟩
    refine ⟨a, List.perm_singleton.1 ?_⟩
    refine (List.perm_ext_iff_of_nodup (h.filter p) (List.nodup_singleton a)).2 fun b => ?_
    rw [List.mem_filter, List.mem_singleton]
    refine ⟨hone b, ?_⟩
    rintro rfl
    exact ⟨ha, hp⟩
  · rintro ⟨a, ha⟩
    have hmem : ∀ b, b ∈ l ∧ p b = true ↔ b = a := by
      intro b
      rw [← List.mem_filter, ha, List.mem_singleton]
    exact ⟨a, (hmem a).2 rfl, fun b hb => (hmem b).1 hb⟩

namespace Codec

variable {dec : CodecRef → Json → Decoding Value} {branches : List BranchCodec} {b : BranchCodec}
  {members : Members Json} {i : Json}

theorem map_discriminator_presentBranches (branches : List BranchCodec) (members : Members Json) :
    (presentBranches branches members).map BranchCodec.discriminator =
      (branches.map BranchCodec.discriminator).filter fun d => Members.has d members := by
  rw [presentBranches, List.filter_map]
  rfl

theorem decodeUnion_of_present (hb : presentBranches branches members = [b])
    (hi : Members.get? b.discriminator members = some i) :
    decodeUnion dec branches members = (dec b.codec i).under (.field b.discriminator) := by
  rw [decodeUnion, hb]
  simp only [hi, Option.getD_some]

theorem decodeUnion_of_not_present (h : ∀ b, presentBranches branches members ≠ [b]) :
    decodeUnion dec branches members = .fail (.discriminator
      ((branches.map BranchCodec.discriminator).filter fun d => Members.has d members)
      (branches.map BranchCodec.discriminator)) := by
  rw [decodeUnion, ← map_discriminator_presentBranches]
  split
  · exact absurd ‹_› (h _)
  · rfl

theorem exists_present_iff (hn : (branches.map BranchCodec.discriminator).Nodup) :
    (∃ b, presentBranches branches members = [b]) ↔
      ∃! d, d ∈ branches.map BranchCodec.discriminator ∧ Members.has d members = true := by
  rw [existsUnique_iff_filter hn, ← map_discriminator_presentBranches]
  constructor
  · rintro ⟨b, hb⟩
    exact ⟨b.discriminator, by rw [hb]; rfl⟩
  · rintro ⟨d, hd⟩
    obtain ⟨b, hb, -⟩ := List.map_eq_singleton_iff.1 hd
    exact ⟨b, hb⟩

/-- A member is handed to a variant if exactly one discriminator is there. -/
theorem hands_member_iff (hn : (branches.map BranchCodec.discriminator).Nodup) :
    (∃ b ∈ branches, ∃ i, Members.get? b.discriminator members = some i ∧
      decodeUnion dec branches members = (dec b.codec i).under (.field b.discriminator)) ↔
      ∃! d, d ∈ branches.map BranchCodec.discriminator ∧ Members.has d members = true := by
  rw [← exists_present_iff hn]
  constructor
  · rintro ⟨b, -, i, -, heq⟩
    by_contra hnone
    rw [decodeUnion_of_not_present (not_exists.1 hnone)] at heq
    exact Decoding.under_ne_fail _ _ _ heq.symm
  · rintro ⟨b, hb⟩
    obtain ⟨hmem, i, hi⟩ := exists_get?_of_present hb
    exact ⟨b, hmem, i, hi, decodeUnion_of_present hb hi⟩

theorem presentBranches_singleton (hn : (branches.map BranchCodec.discriminator).Nodup)
    (hb : b ∈ branches) (i : Json) : presentBranches branches [(b.discriminator, i)] = [b] := by
  rw [presentBranches, ← filter_of_nodup hn hb]
  refine List.filter_congr fun b' _ => ?_
  rw [Bool.eq_iff_iff, Members.has_iff, decide_eq_true_iff]
  exact List.mem_singleton

end Codec

end Typewire
