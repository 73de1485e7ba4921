import Mathlib.Data.List.Perm.Basic
import Typewire.Proofs.Codec.RoundTrip
import Typewire.Proofs.Codec.Termination

/-! # Maps

The entries of a map become the members of an object, one each, if their keys have labels and these
are distinct. The object says what the keys were, in the order of labels.
-/

namespace Typewire

theorem Members.perm_ofList {α : Type} {entries : List (String × α)}
    (h : (Members.names entries).Nodup) : (Members.ofList entries).Perm entries :=
  (List.perm_ext_iff_of_nodup (Members.sorted_ofList entries).nodup.of_map h.of_map).2 fun _ =>
    Members.mem_ofList_iff h

namespace Codec

/-- The codecs whose documents are labels, as they are built: of texts, of the members of an
enumeration that was checked, and of texts in a format. -/
inductive Labels : Codec → Prop
  | string : Labels (.atomic .string)
  | enumeration {type : TypeName} {layout : EnumLayout} : layout.check = .ok () →
      Labels (.enumeration type (layout.members.map fun m => (m.ident, m.label)))
  | formatted {format : String} {accepts : String → Bool} : Labels (.formatted format accepts)

/-- What the codec of keys writes is a label, by which it knows the key again. -/
def Labelled (enc : CodecRef → Value → Encoding Json) (dec : CodecRef → Json → Decoding Value)
    (key : CodecRef) : Prop :=
  ∀ v j, enc key v = pure j → v ≠ .null ∧ ∃ label, j = .str label ∧ dec key j = .ok v

variable {enc : CodecRef → Value → Encoding Json} {dec : CodecRef → Json → Decoding Value}
  {scope : Scope} {codec : Codec} {owner : TypeTerm} {key value : CodecRef}
  {entries : List (Value × Value)} {members done : Members Json} {v : Value} {j : Json}

theorem Labels.isStringBacked (h : codec.Labels) : codec.isStringBacked = true := by
  cases h <;> rfl

theorem decodeEnum_of_encodeEnum {type : TypeName} {ms : List (String × String)}
    (hlabels : (ms.map Prod.snd).Nodup) (h : Scalar.encodeEnum type ms v = .ok j) :
    v ≠ .null ∧ ∃ label, j = .str label ∧ Scalar.decodeEnum type ms j = .ok v := by
  obtain ⟨m, hm, rfl, rfl⟩ := Scalar.exists_of_encodeEnum h
  exact ⟨nofun, m.2, rfl, Scalar.decodeEnum_of_mem type hlabels hm⟩

theorem Labels.label_of_encodeWith (h : codec.Labels) (he : codec.encodeWith enc scope v = pure j) :
    v ≠ .null ∧ ∃ label, j = .str label ∧ codec.decodeWith dec scope j = .ok v := by
  cases h with
  | string =>
    have he := Encoding.eq_of_ofExcept he
    cases v <;> cases he
    exact ⟨nofun, _, rfl, rfl⟩
  | enumeration hcheck =>
    have hlabels := (EnumLayout.check_iff.1 hcheck).labels
    obtain ⟨hv, label, rfl, hd⟩ := decodeEnum_of_encodeEnum
      (by simpa [EnumLayout.labels, Function.comp_def] using hlabels) (Encoding.eq_of_ofExcept he)
    exact ⟨hv, label, rfl, by rw [decodeWith, hd]; rfl⟩
  | formatted =>
    have he := Encoding.eq_of_ofExcept he
    cases v with
    | string s =>
      rw [Scalar.encodeFormatted] at he
      split at he
      · rename_i hs
        cases he
        refine ⟨nofun, s, rfl, ?_⟩
        rw [decodeWith, Scalar.decodeFormatted, if_pos hs]
        rfl
      · cases he
    | _ => cases he

theorem exists_partEncodes (h : v ≠ .null → ∃ j, enc value v = pure j) :
    ∃ j, PartEncodes enc value v j := by
  by_cases hv : v = .null
  · exact ⟨.null, fun _ => rfl, fun hne => absurd hv hne⟩
  · obtain ⟨j, hj⟩ := h hv
    exact ⟨j, fun he => absurd he hv, fun _ => hj⟩

/-- The entries in another order are those of the members, one for each. -/
structure Lists (enc : CodecRef → Value → Encoding Json) (key value : CodecRef)
    (listed : List (Value × Value)) (members : Members Json) : Prop where
  sorted : Members.Sorted members
  entries : List.Forall₂ (EntryEncodes enc key value) listed members

theorem exists_lists_of_encodeEntries
    (h : encodeEntries enc true key value [] entries = pure members) :
    ∃ listed, listed.Perm entries ∧ Lists enc key value listed members := by
  obtain ⟨written, hwritten, hnodup, -, rfl⟩ := encodeEntries_eq_pure_iff.1 h
  obtain ⟨listed, hmembers, hlisted⟩ :=
    List.perm_comp_forall₂ (Members.perm_ofList hnodup) hwritten.flip
  exact ⟨listed, hlisted, Members.sorted_ofList written, hmembers.flip⟩

/-- A map is written if its keys have labels, its values are written, and no label is repeated. -/
theorem encodes_entries_iff (hkey : Labelled enc dec key) :
    (∃ members, encodeEntries enc true key value [] entries = pure members) ↔
      (∀ e ∈ entries, e.1 ≠ .null ∧ ∃ j, enc key e.1 = pure j) ∧
      (∀ e ∈ entries, e.2 ≠ .null → ∃ j, enc value e.2 = pure j) ∧
      entries.Pairwise fun e e' => enc key e.1 ≠ enc key e'.1 := by
  constructor
  · rintro ⟨members, h⟩
    obtain ⟨written, hwritten, hnodup, -, -⟩ := encodeEntries_eq_pure_iff.1 h
    refine ⟨fun e he => ?_, fun e he hv => ?_, ?_⟩
    · obtain ⟨m, -, hm⟩ := exists_right_of_forall₂ hwritten he
      exact ⟨hm.ne_null, _, hm.label⟩
    · obtain ⟨m, -, hm⟩ := exists_right_of_forall₂ hwritten he
      exact ⟨m.2, hm.part.encoded hv⟩
    · refine pairwise_of_forall₂ hwritten (fun e e' m m' hm hm' hne => ?_)
        (List.pairwise_map.1 hnodup)
      rw [hm.label, hm'.label]
      exact fun heq => hne (Json.str.inj (Encoding.pure_injective heq))
  · rintro ⟨hkeys, hvalues, hdistinct⟩
    obtain ⟨written, hwritten⟩ : ∃ written, List.Forall₂ (EntryEncodes enc key value) entries
        written := by
      refine exists_forall₂ fun e he => ?_
      obtain ⟨hne, j, hj⟩ := hkeys e he
      obtain ⟨-, label, rfl, -⟩ := hkey e.1 j hj
      obtain ⟨part, hpart⟩ := exists_partEncodes (hvalues e he)
      exact ⟨(label, part), hne, hj, hpart⟩
    refine ⟨_, encodeEntries_eq_pure_iff.2 ⟨written, hwritten, ?_, fun _ _ => nofun, rfl⟩⟩
    refine List.pairwise_map.2 (pairwise_of_forall₂ hwritten.flip ?_ hdistinct)
    rintro m m' e e' hm hm' hne heq
    refine hne ?_
    rw [hm.label, hm'.label, heq]

theorem exists_partDecodes_iff :
    (∃ w, PartDecodes dec value j w) ↔ (j.isNull = false → ∃ w, dec value j = .ok w) := by
  constructor
  · rintro ⟨w, hw⟩ hj
    exact ⟨w, hw.decoded hj⟩
  · intro h
    cases hj : j.isNull with
    | true => exact ⟨.null, fun _ => rfl, fun hn => by simp [hj] at hn⟩
    | false =>
      obtain ⟨w, hw⟩ := h hj
      exact ⟨w, fun hn => by simp [hj] at hn, fun _ => hw⟩

theorem Lists.decodeEntries_eq_ok_iff (hkey : Labelled enc dec key)
    {listed back : List (Value × Value)} (h : Lists enc key value listed members) :
    decodeEntries dec key value members = .ok back ↔
      ∃ values, back = (listed.map Prod.fst).zip values ∧
        List.Forall₂ (fun m w => PartDecodes dec value m.2 w) members values := by
  rw [Codec.decodeEntries_eq_ok_iff]
  obtain ⟨-, h⟩ := h
  induction h generalizing back with
  | nil =>
    constructor
    · rintro ⟨⟩
      exact ⟨[], rfl, .nil⟩
    · rintro ⟨_, rfl, ⟨⟩⟩
      exact .nil
  | @cons entry member listed members hentry _ ih =>
    obtain ⟨-, label, hlabel, hdec⟩ := hkey _ _ hentry.label
    cases hlabel
    constructor
    · intro hback
      obtain ⟨⟨k, w⟩, rest, ⟨hk, hpart⟩, hrest, rfl⟩ := List.forall₂_cons_left_iff.1 hback
      obtain ⟨values, rfl, hvalues⟩ := ih.1 hrest
      obtain rfl : entry.1 = k := Except.ok.inj (hdec.symm.trans hk)
      exact ⟨w :: values, rfl, .cons hpart hvalues⟩
    · rintro ⟨_, rfl, (_ | ⟨hpart, hvalues⟩)⟩
      exact .cons ⟨hdec, hpart⟩ (ih.2 ⟨_, rfl, hvalues⟩)

theorem Lists.decodes_iff (hkey : Labelled enc dec key) {listed : List (Value × Value)}
    (h : Lists enc key value listed members) :
    (∃ back, decodeEntries dec key value members = .ok back) ↔
      ∀ m ∈ members, m.2.isNull = false → ∃ w, dec value m.2 = .ok w := by
  simp only [h.decodeEntries_eq_ok_iff hkey, ← exists_partDecodes_iff]
  constructor
  · rintro ⟨_, values, -, hvalues⟩ m hm
    obtain ⟨w, -, hw⟩ := exists_right_of_forall₂ hvalues hm
    exact ⟨w, hw⟩
  · intro hall
    obtain ⟨values, hvalues⟩ := exists_forall₂ hall
    exact ⟨_, values, rfl, hvalues⟩

end Codec

namespace Store

variable {store : Store} {ref key value : CodecRef} {owner : TypeTerm} {codec : Codec}

theorem labelled (hkey : store.codec? key = some codec) (h : codec.Labels) (calls : Nat) :
    Codec.Labelled (store.encodeWithin calls) store.decode key := by
  intro v j hj
  cases calls with
  | zero => cases hj
  | succ calls =>
    rw [encodeWithin, hkey] at hj
    rw [decode_eq hkey]
    exact h.label_of_encodeWith hj

end Store

end Typewire
