import Typewire.Proofs.Codec.Inversion
import Typewire.Proofs.Codec.References

/-! # What decoding hands on

A step of decoding that succeeds gives parts of the document to nested codecs. What these make of
the parts is all that the step has from them. Whether a record refuses unknown members is decided
apart from that.
-/

namespace Typewire.Codec

/-- Decoding the document decodes a part of it by a nested codec. -/
inductive Hands : Codec → Json → CodecRef → Json → Prop
  | item {container : Container} {element : CodecRef} {items : List Json} {i : Json} : i ∈ items →
      i.isNull = false → Hands (.sequence container element) (.arr items) element i
  | key {owner : TypeTerm} {key value : CodecRef} {members : Members Json} {e : String × Json} :
      e ∈ members → Hands (.map owner key value) (.obj members) key (.str e.1)
  | entry {owner : TypeTerm} {key value : CodecRef} {members : Members Json} {e : String × Json} :
      e ∈ members → e.2.isNull = false → Hands (.map owner key value) (.obj members) value e.2
  | field {owner : TypeTerm} {constructor : Constructor} {fields : List FieldCodec} {strict : Bool}
      {members : Members Json} {f : FieldCodec} {i : Json} : f ∈ fields →
      f.property.deserializable = true → Members.get? f.property.name members = some i →
      i.isNull = false → Hands (.record owner constructor fields strict) (.obj members) f.codec i
  | variant {owner : TypeTerm} {branches : List BranchCodec} {members : Members Json}
      {b : BranchCodec} {i : Json} : presentBranches branches members = [b] →
      Members.get? b.discriminator members = some i →
      Hands (.union owner branches) (.obj members) b.codec i

/-- All members of the document are read, if the codec is that of a record. -/
def Knows : Codec → Json → Prop
  | .record _ _ fields _, .obj members => ∀ name ∈ Members.names members, reads fields name = true
  | _, _ => True

def withStrict (strict : Bool) : Codec → Codec
  | .record owner constructor fields _ => .record owner constructor fields strict
  | codec => codec

variable {codec : Codec} {dec dec' : CodecRef → Json → Decoding Value} {scope : Scope} {j i : Json}
  {v : Value} {ref : CodecRef}

theorem Hands.exists_ok (hands : codec.Hands j ref i)
    (h : codec.decodeWith dec scope j = .ok v) : ∃ w, dec ref i = .ok w := by
  cases hands with
  | item hi hn =>
    obtain ⟨vs, hvs, -⟩ := Except.exists_of_map h
    obtain ⟨w, -, hw⟩ := exists_right_of_forall₂ (decodeItems_eq_ok_iff.1 hvs) hi
    exact ⟨w, hw.decoded hn⟩
  | key he =>
    rw [decodeWith] at h
    split at h
    · obtain ⟨entries, hentries, -⟩ := Except.exists_of_map h
      obtain ⟨entry, -, hkey, -⟩ := exists_right_of_forall₂ (decodeEntries_eq_ok_iff.1 hentries) he
      exact ⟨_, hkey⟩
    · cases h
  | entry he hn =>
    rw [decodeWith] at h
    split at h
    · obtain ⟨entries, hentries, -⟩ := Except.exists_of_map h
      obtain ⟨entry, -, -, hvalue⟩ :=
        exists_right_of_forall₂ (decodeEntries_eq_ok_iff.1 hentries) he
      exact ⟨_, hvalue.decoded hn⟩
    · cases h
  | field hf hd hi hn =>
    obtain ⟨-, values, -, hvalues, -⟩ := exists_of_decodeRecord h
    obtain ⟨w, -, hw⟩ := hvalues.present _ hf hd _ hi hn
    exact ⟨w, hw⟩
  | variant hpresent hi =>
    obtain ⟨b, k, hpresent', hk, hdec⟩ := exists_of_decodeUnion h
    cases hpresent.symm.trans hpresent'
    cases hi.symm.trans hk
    exact ⟨v, hdec⟩

theorem decodeFields_mono {owner : TypeTerm} {members : Members Json} {fs : List FieldCodec}
    {values : List (Property × Value)} (h : decodeFields dec owner members fs = .ok values)
    (hn : ∀ f ∈ fs, f.property.deserializable = true → ∀ i w,
      Members.get? f.property.name members = some i → i.isNull = false →
        dec f.codec i = .ok w → dec' f.codec i = .ok w) :
    decodeFields dec' owner members fs = .ok values := by
  induction fs generalizing values with
  | nil => exact h
  | cons f fs ih =>
    obtain ⟨hf, hn⟩ := List.forall_mem_cons.1 hn
    rw [decodeFields] at h ⊢
    cases hd : f.property.deserializable with
    | false =>
      rw [hd] at h
      exact ih h hn
    | true =>
      simp only [hd, Bool.not_true, Bool.false_eq_true, if_false] at h ⊢
      split at h
      · split at h
        · cases h
        · rw [if_neg ‹_›]
          exact ih h hn
      · rename_i i hi
        obtain ⟨hi, hnull⟩ := Option.filter_eq_some_iff.1 hi
        obtain ⟨w, hw, h⟩ := Except.exists_of_bind h
        obtain ⟨rest, hrest, h⟩ := Except.exists_of_bind h
        cases h
        have hw' := hf hd i w hi (by simpa using hnull) (Decoding.under_eq_ok_iff.1 hw)
        rw [hw', ih hrest hn]
        rfl

theorem decodeWith_mono (h : codec.decodeWith dec scope j = .ok v)
    (hn : ∀ ref i w, codec.Hands j ref i → dec ref i = .ok w → dec' ref i = .ok w) :
    codec.decodeWith dec' scope j = .ok v := by
  have hpart : ∀ ref i w, (i.isNull = false → codec.Hands j ref i) → PartDecodes dec ref i w →
      PartDecodes dec' ref i w :=
    fun ref i w hands hw => ⟨hw.null, fun hi => hn ref i w (hands hi) (hw.decoded hi)⟩
  cases codec with
  | atomic | enumeration | formatted | custom => exact h
  | sequence container element =>
    cases j with
    | arr items =>
      obtain ⟨vs, hvs, rfl⟩ := Except.exists_of_map h
      obtain ⟨hlength, hvs⟩ := List.forall₂_iff_zip.1 (decodeItems_eq_ok_iff.1 hvs)
      rw [decodeWith, decodeItems_eq_ok_iff.2]
      · rfl
      exact List.forall₂_iff_zip.2 ⟨hlength, fun he =>
        hpart _ _ _ (.item (List.of_mem_zip he).1) (hvs he)⟩
    | _ => cases h
  | map owner key value =>
    cases j with
    | obj members =>
      rw [decodeWith] at h ⊢
      split at h
      · obtain ⟨entries, hentries, rfl⟩ := Except.exists_of_map h
        obtain ⟨hlength, hentries⟩ := List.forall₂_iff_zip.1 (decodeEntries_eq_ok_iff.1 hentries)
        rw [if_pos ‹_›, decodeEntries_eq_ok_iff.2]
        · rfl
        refine List.forall₂_iff_zip.2 ⟨hlength, fun {e entry} he => ?_⟩
        have hmem := (List.of_mem_zip he).1
        exact ⟨hn _ _ _ (.key hmem) (hentries he).1, hpart _ _ _ (.entry hmem) (hentries he).2⟩
      · cases h
    | _ => cases h
  | record owner constructor fields strict =>
    cases j with
    | obj members =>
      rw [decodeWith, decodeRecord] at h ⊢
      split at h
      · cases h
      · obtain ⟨values, hvalues, h⟩ := Except.exists_of_bind h
        rw [decodeFields_mono hvalues fun f hf hd i w hi hnull =>
          hn _ _ _ (.field hf hd hi hnull)]
        exact h
    | _ => cases h
  | union owner branches =>
    cases j with
    | obj members =>
      obtain ⟨b, i, hpresent, hi, hb⟩ := exists_of_decodeUnion h
      rw [decodeWith, decodeUnion, hpresent]
      simp only [hi, Option.getD_some]
      exact Decoding.under_eq_ok_iff.2 (hn _ _ _ (.variant hpresent hi) hb)
    | _ => cases h

/-- With the check on unknown members a record gives what it gives without, if there are none. -/
theorem decodeWith_withStrict_iff : (codec.withStrict true).decodeWith dec scope j = .ok v ↔
    (codec.withStrict false).decodeWith dec scope j = .ok v ∧ codec.Knows j := by
  cases codec with
  | record owner constructor fields strict =>
    cases j with
    | obj members =>
      simp only [withStrict, decodeWith, decodeRecord, Bool.true_and, Bool.false_and, Knows]
      rw [List.find?_eq_none.2 fun _ _ => Bool.false_ne_true]
      cases hfind : (Members.names members).find? fun name => !reads fields name with
      | none =>
        have hknows : ∀ name ∈ Members.names members, reads fields name = true := by
          simpa using List.find?_eq_none.1 hfind
        exact (and_iff_left hknows).symm
      | some name =>
        have hunknown := List.find?_some hfind
        constructor
        · intro h
          cases h
        · rintro ⟨-, hknows⟩
          rw [hknows name (List.mem_of_find?_eq_some hfind)] at hunknown
          cases hunknown
    | _ => simp [withStrict, decodeWith, Knows]
  | _ => exact (and_iff_left trivial).symm

theorem encodeWith_withStrict (strict : Bool) (enc : CodecRef → Value → Encoding Json) :
    (codec.withStrict strict).encodeWith enc scope v = codec.encodeWith enc scope v := by
  cases codec <;> rfl

theorem isStringBacked_withStrict (strict : Bool) :
    (codec.withStrict strict).isStringBacked = codec.isStringBacked := by
  cases codec <;> rfl

variable {f : CodecRef → CodecRef}

theorem Hands.mapRefs (h : codec.Hands j ref i) : (codec.mapRefs f).Hands j (f ref) i := by
  cases h with
  | item hi hn => exact .item hi hn
  | key he => exact .key he
  | entry he hn => exact .entry he hn
  | field hf hd hi hn => exact .field (List.mem_map_of_mem (f := FieldCodec.mapRef f) hf) hd hi hn
  | @variant _ branches members b _ hpresent hi =>
    have hpresent' : presentBranches (branches.map (BranchCodec.mapRef f)) members =
        [b.mapRef f] := by rw [presentBranches_map, hpresent, List.map_singleton]
    exact .variant hpresent' hi

theorem Hands.of_mapRefs {ref' : CodecRef} (h : (codec.mapRefs f).Hands j ref' i) :
    ∃ ref, f ref = ref' ∧ codec.Hands j ref i := by
  cases codec with
  | atomic | enumeration | formatted | custom => cases h
  | sequence container element =>
    cases h with
    | item hi hn => exact ⟨element, rfl, .item hi hn⟩
  | map owner key value =>
    cases h with
    | key he => exact ⟨key, rfl, .key he⟩
    | entry he hn => exact ⟨value, rfl, .entry he hn⟩
  | record owner constructor fields strict =>
    cases h with
    | field hf hd hi hn =>
      obtain ⟨g, hg, rfl⟩ := List.mem_map.1 hf
      exact ⟨g.codec, rfl, .field hg hd hi hn⟩
  | union owner branches =>
    cases h with
    | variant hpresent hi =>
      rw [presentBranches_map, List.map_eq_singleton_iff] at hpresent
      obtain ⟨b, hpresent, rfl⟩ := hpresent
      exact ⟨b.codec, rfl, .variant hpresent hi⟩

theorem Hands.mem_refs (h : codec.Hands j ref i) : ref ∈ codec.refs := by
  cases h with
  | item => exact List.mem_singleton_self _
  | key => exact List.mem_cons_self
  | entry => exact List.mem_cons_of_mem _ (List.mem_singleton_self _)
  | field hf => exact List.mem_map_of_mem hf
  | variant hpresent => exact List.mem_map_of_mem (exists_get?_of_present hpresent).1

theorem knows_mapRefs : (codec.mapRefs f).Knows j ↔ codec.Knows j := by
  cases codec <;> cases j <;> simp only [mapRefs, Knows, reads_map]

end Typewire.Codec
