import Typewire.Proofs.Codec.Inversion
import Typewire.Word

/-! # Steps forth and back

What a step of a codec makes of the images of the parts, and what a step back makes of that.
-/

namespace Typewire

theorem Scalar.encodeAtomic_decodeAtomic {kind : AtomicKind} {v : Value} {j : Json}
    (h : encodeAtomic kind v = .ok j) (hk : kind = .long → ∀ i, v ≠ .int i)
    (hd : kind = .double → ∃ x, v = .double x) :
    decodeAtomic kind j = .ok v ∧ j.isNull = false ∧ j.depth = 0 := by
  unfold encodeAtomic at h
  split at h
  case h_1 | h_2 =>
    cases h
    exact ⟨rfl, rfl, rfl⟩
  case h_3 i =>
    cases h
    refine ⟨?_, rfl, rfl⟩
    have h32 := Word.fits32_toInt i
    simp [decodeAtomic, decodeWhole, h32, Word.fits64_of_fits32 h32]
  case h_4 i => exact absurd rfl (hk rfl i)
  case h_5 i =>
    cases h
    refine ⟨?_, rfl, rfl⟩
    simp [decodeAtomic, decodeWhole, Word.fits64_toInt, Except.map]
  case h_6 x =>
    split at h
    · cases h
      exact ⟨rfl, rfl, rfl⟩
    · cases h
  case h_7 | h_8 =>
    obtain ⟨x, hx⟩ := hd rfl
    cases hx
  case h_9 => cases h

namespace Codec

variable {enc : CodecRef → Value → Encoding Json} {dec : CodecRef → Json → Decoding Value}

section Alike

variable {ref key value : CodecRef} {f : Value → Value}

theorem encodePart_alike {v w : Value} (hn : w = .null ↔ v = .null)
    (h : v ≠ .null → enc ref w = enc ref v) (step : Step) :
    encodePart enc ref step w = encodePart enc ref step v := by
  by_cases hv : v = .null
  · rw [hn.2 hv, hv]
  · have hv' : ¬ v.isNull = true := fun he => hv (Value.isNull_iff.1 he)
    have hw' : ¬ w.isNull = true := fun he => hv (hn.1 (Value.isNull_iff.1 he))
    rw [encodePart, encodePart, if_neg hv', if_neg hw', h hv]

theorem encodeItems_alike {vs : List Value}
    (h : ∀ v ∈ vs, ∀ step, encodePart enc ref step (f v) = encodePart enc ref step v)
    (index : Nat) : encodeItems enc ref index (vs.map f) = encodeItems enc ref index vs := by
  induction vs generalizing index with
  | nil => rfl
  | cons v vs ih =>
    rw [List.map_cons, encodeItems, encodeItems, h v List.mem_cons_self,
      ih fun w hw => h w (List.mem_cons_of_mem _ hw)]

theorem encodeEntries_alike {backed : Bool} {entries : List (Value × Value)}
    (h : ∀ e ∈ entries, ∀ step, encodePart enc value step (f e.2) = encodePart enc value step e.2)
    (done : Members Json) :
    encodeEntries enc backed key value done (entries.map fun e => (e.1, f e.2)) =
      encodeEntries enc backed key value done entries := by
  induction entries generalizing done with
  | nil => rfl
  | cons e entries ih =>
    have ih := ih fun e he => h e (List.mem_cons_of_mem _ he)
    simp only [List.map_cons, encodeEntries, h e List.mem_cons_self, ih]

end Alike

theorem encodeKey_eq {key : CodecRef} {v : Value} {label : String} (hv : v ≠ .null)
    (h : enc key v = pure (.str label)) : encodeKey enc true key v = pure label := by
  have hn : v.isNull = false := Bool.not_eq_true _ ▸ fun he => hv (Value.isNull_iff.1 he)
  rw [encodeKey, hn, h]
  rfl

/-- An entry became a member, with the label of its key as the name. -/
structure EntryEncodes (enc : CodecRef → Value → Encoding Json) (key value : CodecRef)
    (entry : Value × Value) (member : String × Json) : Prop where
  ne_null : entry.1 ≠ .null
  label : enc key entry.1 = pure (.str member.1)
  part : PartEncodes enc value entry.2 member.2

theorem encodeKey_eq_pure_iff {key : CodecRef} {v : Value} {label : String} :
    encodeKey enc true key v = pure label ↔ v ≠ .null ∧ enc key v = pure (.str label) := by
  constructor
  · intro h
    rw [encodeKey] at h
    split at h
    · cases h
    · rename_i hgood
      simp only [Bool.not_true, Bool.false_eq_true, or_false, Value.isNull_iff] at hgood
      obtain ⟨j, hj, h⟩ := Encoding.exists_of_bind h
      split at h
      · cases h
        exact ⟨hgood, hj⟩
      · cases h
  · rintro ⟨hv, h⟩
    exact encodeKey_eq hv h

theorem encodeEntries_eq_pure_iff {key value : CodecRef} {entries : List (Value × Value)}
    {done members : Members Json} :
    encodeEntries enc true key value done entries = pure members ↔
      ∃ written, List.Forall₂ (EntryEncodes enc key value) entries written ∧
        (Members.names written).Nodup ∧
        (∀ name ∈ Members.names written, name ∉ Members.names done) ∧
        members = written.foldl (fun m e => Members.insert e.1 e.2 m) done := by
  constructor
  · intro h
    -- Members are only added, so a label is new among those before it and those after it.
    induction entries generalizing done with
    | nil =>
      cases h
      exact ⟨[], .nil, List.nodup_nil, nofun, rfl⟩
    | cons entry entries ih =>
      rw [encodeEntries] at h
      obtain ⟨label, hlabel, h⟩ := Encoding.exists_of_bind h
      obtain ⟨j, hj, h⟩ := Encoding.exists_of_bind h
      split at h
      · cases h
      · rename_i hnew
        rw [Members.has_iff] at hnew
        obtain ⟨hkey, hlabel⟩ := encodeKey_eq_pure_iff.1 hlabel
        obtain ⟨written, hwritten, hnodup, hdone, rfl⟩ := ih h
        refine ⟨(label, j) :: written,
          .cons ⟨hkey, hlabel, encodePart_eq_pure_iff.1 hj⟩ hwritten,
          List.nodup_cons.2 ⟨fun hm => ?_, hnodup⟩,
          List.forall_mem_cons.2 ⟨hnew, fun name hm hd => ?_⟩, rfl⟩
        · exact hdone label hm (Members.mem_names_insert.2 (.inl rfl))
        · exact hdone name hm (Members.mem_names_insert.2 (.inr hd))
  · rintro ⟨written, hwritten, hnodup, hdone, rfl⟩
    induction hwritten generalizing done with
    | nil => rfl
    | @cons entry member entries written hentry _ ih =>
      obtain ⟨hnew, hnodup⟩ := List.nodup_cons.1 hnodup
      obtain ⟨hhas, hdone⟩ := List.forall_mem_cons.1 hdone
      rw [← Members.has_iff, Bool.not_eq_true] at hhas
      rw [encodeEntries, encodeKey_eq hentry.ne_null hentry.label, pure_bind,
        encodePart_eq_pure_iff.2 hentry.part, pure_bind, hhas]
      refine ih hnodup fun name hm hd => ?_
      rcases Members.mem_names_insert.1 hd with rfl | hd
      · exact hnew hm
      · exact hdone name hm hd

theorem encodeEntries_eq (label : Value → String) (image : Value → Json) {key value : CodecRef}
    {entries : List (Value × Value)} (hl : (entries.map fun e => label e.1).Nodup)
    (hk : ∀ e ∈ entries, encodeKey enc true key e.1 = pure (label e.1))
    (hv : ∀ e ∈ entries, PartEncodes enc value e.2 (image e.2)) :
    encodeEntries enc true key value [] entries =
      pure (Members.ofList (entries.map fun e => (label e.1, image e.2))) := by
  refine encodeEntries_eq_pure_iff.2
    ⟨entries.map fun e => (label e.1, image e.2), ?_, ?_, by simp [Members.names], rfl⟩
  · rw [List.forall₂_map_right_iff]
    refine List.forall₂_same.2 fun e he => ?_
    obtain ⟨hne, hlabel⟩ := encodeKey_eq_pure_iff.1 (hk e he)
    exact ⟨hne, hlabel, hv e he⟩
  · simpa [Members.names, Function.comp_def] using hl

def writes (fields : Members Value) (p : Property) : Bool :=
  p.serializable && !(Fields.get p.name fields).isNull

theorem writes_iff {fields : Members Value} {p : Property} :
    writes fields p = true ↔ p.serializable = true ∧ Fields.get p.name fields ≠ .null := by
  rw [writes, Bool.and_eq_true, Bool.not_eq_true', Bool.eq_false_iff, ne_eq, Value.isNull_iff]

section Fields

variable {owner : TypeTerm} {type : TypeName} {fields fields' : Members Value}
  {fs : List FieldCodec}

theorem encodeFields_cons {f : FieldCodec}
    (hget : f.property.accessor.get = Accessor.getField f.property.name) :
    encodeFields enc owner (.object type fields) (f :: fs) =
      if writes fields f.property then do
        let j ← (enc f.codec (Fields.get f.property.name fields)).under (.field f.property.name)
        let rest ← encodeFields enc owner (.object type fields) fs
        return (f.property.name, j) :: rest
      else if f.property.serializable && f.property.mandatory then
        .fail (.nullMandatory owner f.property.name)
      else encodeFields enc owner (.object type fields) fs := by
  rw [encodeFields, hget, Accessor.getField]
  cases hs : f.property.serializable with
  | false => simp [writes, hs]
  | true =>
    by_cases hnull : Fields.get f.property.name fields = .null
    · simp [writes, hs, hnull, Value.isNull]
    · rw [if_pos (writes_iff.2 ⟨hs, hnull⟩), Bool.not_true, if_neg Bool.false_ne_true]
      split
      · rename_i he
        cases he
      · rename_i he
        exact absurd (Except.ok.inj he) hnull
      · rename_i he
        rw [← Except.ok.inj he]

theorem encodeFields_eq (image : String → Json)
    (hget : ∀ f ∈ fs, f.property.accessor.get = Accessor.getField f.property.name)
    (hm : ∀ f ∈ fs, f.property.serializable = true → f.property.mandatory = true →
      Fields.get f.property.name fields ≠ .null)
    (hn : ∀ f ∈ fs, writes fields f.property = true →
      enc f.codec (Fields.get f.property.name fields) = pure (image f.property.name)) :
    encodeFields enc owner (.object type fields) fs =
      pure ((fs.filter fun f => writes fields f.property).map
        fun f => (f.property.name, image f.property.name)) := by
  induction fs with
  | nil => rfl
  | cons f fs ih =>
    have ih := ih (fun g hg => hget g (List.mem_cons_of_mem _ hg))
      (fun g hg => hm g (List.mem_cons_of_mem _ hg)) fun g hg => hn g (List.mem_cons_of_mem _ hg)
    rw [encodeFields_cons (hget f List.mem_cons_self), ih, List.filter_cons]
    by_cases hw : writes fields f.property = true
    · rw [if_pos hw, if_pos hw, hn f List.mem_cons_self hw]
      rfl
    · have hmand : ¬ (f.property.serializable && f.property.mandatory) = true := by
        rw [Bool.and_eq_true]
        rintro ⟨hs, hman⟩
        exact hw (writes_iff.2 ⟨hs, hm f List.mem_cons_self hs hman⟩)
      rw [if_neg hw, if_neg hw, if_neg hmand]

/-- Instances that write the same properties, in the same way, become the same members. -/
theorem encodeFields_alike
    (hget : ∀ f ∈ fs, f.property.accessor.get = Accessor.getField f.property.name)
    (hw : ∀ f ∈ fs, writes fields' f.property = writes fields f.property)
    (h : ∀ f ∈ fs, writes fields f.property = true →
      enc f.codec (Fields.get f.property.name fields') =
        enc f.codec (Fields.get f.property.name fields)) :
    encodeFields enc owner (.object type fields') fs =
      encodeFields enc owner (.object type fields) fs := by
  induction fs with
  | nil => rfl
  | cons f fs ih =>
    have ih := ih (fun g hg => hget g (List.mem_cons_of_mem _ hg))
      (fun g hg => hw g (List.mem_cons_of_mem _ hg)) fun g hg => h g (List.mem_cons_of_mem _ hg)
    have hf := hget f List.mem_cons_self
    rw [encodeFields_cons hf, encodeFields_cons hf, ih, hw f List.mem_cons_self]
    by_cases hwf : writes fields f.property = true
    · rw [if_pos hwf, if_pos hwf, h f List.mem_cons_self hwf]
    · rw [if_neg hwf, if_neg hwf]

end Fields

def gives (members : Members Json) (name : String) : Bool :=
  (Members.get? name members).any fun j => !j.isNull

theorem gives_iff {members : Members Json} {name : String} : gives members name = true ↔
    ∃ j, Members.get? name members = some j ∧ j.isNull = false := by
  simp [gives, Option.any_eq_true]

theorem decodeFields_eq (value : String → Value) {owner : TypeTerm} {members : Members Json}
    {fs : List FieldCodec}
    (hm : ∀ f ∈ fs, f.property.deserializable = true → f.property.mandatory = true →
      gives members f.property.name = true)
    (hn : ∀ f ∈ fs, f.property.deserializable = true → ∀ j,
      Members.get? f.property.name members = some j → j.isNull = false →
        dec f.codec j = .ok (value f.property.name)) :
    decodeFields dec owner members fs =
      .ok ((fs.filter fun f => f.property.deserializable && gives members f.property.name).map
        fun f => (f.property, value f.property.name)) := by
  induction fs with
  | nil => rfl
  | cons f fs ih =>
    have ih := ih (fun g hg => hm g (List.mem_cons_of_mem _ hg))
      fun g hg => hn g (List.mem_cons_of_mem _ hg)
    have hm := hm f List.mem_cons_self
    have hn := hn f List.mem_cons_self
    rw [decodeFields, ih, List.filter_cons]
    cases hd : f.property.deserializable with
    | false => simp
    | true =>
      by_cases hg : gives members f.property.name = true
      · obtain ⟨j, hj, hnull⟩ := gives_iff.1 hg
        simp only [hj, hg, hn hd j hj hnull, Option.filter, hnull, Bool.not_true, Bool.not_false,
          Bool.and_self, if_true, List.map_cons]
        rfl
      · have hmand : f.property.mandatory = false :=
          Bool.eq_false_iff.2 fun hman => hg (hm hd hman)
        have hnone : (Members.get? f.property.name members).filter (fun j => !j.isNull) = none := by
          rw [Option.filter_eq_none_iff]
          intro j hj hnull
          exact hg (gives_iff.2 ⟨j, hj, by simpa using hnull⟩)
        simp [hnone, hg, hmand]

theorem encodeWith_union {scope : Scope} {owner : TypeTerm} {bs : List BranchCodec}
    {b : BranchCodec} {v : Value} (h : branchFor? scope.isInstance bs v = some b) :
    (union owner bs).encodeWith enc scope v = do
      let j ← (enc b.codec v).under (.field b.discriminator)
      return .obj [(b.discriminator, j)] := by
  rw [encodeWith, h]

theorem decodeUnion_eq {bs : List BranchCodec} {b : BranchCodec} {members : Members Json}
    {j : Json} {v : Value} (hn : (bs.map BranchCodec.discriminator).Nodup) (hb : b ∈ bs)
    (hj : Members.get? b.discriminator members = some j)
    (hone : ∀ b' ∈ bs, Members.has b'.discriminator members = true →
      b'.discriminator = b.discriminator)
    (hdec : dec b.codec j = .ok v) : decodeUnion dec bs members = .ok v := by
  have hpresent : presentBranches bs members = [b] := by
    rw [presentBranches, ← filter_of_nodup hn hb]
    refine List.filter_congr fun b' hb' => ?_
    rw [Bool.eq_iff_iff, decide_eq_true_iff]
    refine ⟨hone b' hb', fun heq => ?_⟩
    rw [heq, Members.has, hj]
    rfl
  rw [decodeUnion, hpresent]
  simp only [hj, Option.getD_some, hdec]
  rfl

end Codec

end Typewire
