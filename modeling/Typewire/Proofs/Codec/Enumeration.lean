import Typewire.Proofs.Codec.Inversion
import Typewire.Registry.Derivation

/-! # Labels of enumerations

The members of an enumeration that passed the check have identifiers of their own and labels of
their own, though the identifier of one may be the label of another. So each member is written by
its label and known by it again, and no other text stands for a member.
-/

namespace Typewire

namespace Scalar

variable {type : TypeName} {ms : List (String × String)} {v : Value} {j : Json} {label : String}

theorem encodeEnum_eq_ok_iff (h : (ms.map Prod.fst).Nodup) :
    encodeEnum type ms v = .ok j ↔ ∃ m ∈ ms, v = .enum type m.1 ∧ j = .str m.2 := by
  constructor
  · exact exists_of_encodeEnum
  · rintro ⟨m, hm, rfl, rfl⟩
    exact encodeEnum_of_mem type h hm

theorem decodeEnum_eq_ok_iff (h : (ms.map Prod.snd).Nodup) :
    decodeEnum type ms j = .ok v ↔ ∃ m ∈ ms, v = .enum type m.1 ∧ j = .str m.2 := by
  constructor
  · exact exists_of_decodeEnum
  · rintro ⟨m, hm, rfl, rfl⟩
    exact decodeEnum_of_mem type h hm

theorem decodeEnum_of_not_mem (type : TypeName) (h : label ∉ ms.map Prod.snd) :
    decodeEnum type ms (.str label) = .error (.unknownLabel label (ms.map Prod.snd)) := by
  have hnone : ms.find? (fun m => m.2 = label) = none := by
    rw [List.find?_eq_none]
    rintro m hm heq
    exact h (List.mem_map.2 ⟨m, hm, by simpa using heq⟩)
  rw [decodeEnum, hnone]

end Scalar

namespace EnumLayout

variable {settings : Settings} {term : TypeTerm} {layout : EnumLayout} {codec : Codec}
  {type : TypeName} {enc : CodecRef → Value → Encoding Json}
  {dec : CodecRef → Json → Decoding Value} {scope : Scope} {v : Value} {j : Json}

def labelled (layout : EnumLayout) : List (String × String) :=
  layout.members.map fun m => (m.ident, m.label)

theorem map_fst_labelled (layout : EnumLayout) :
    layout.labelled.map Prod.fst = layout.members.map EnumMember.ident := by
  simp [labelled, Function.comp_def]

theorem map_snd_labelled (layout : EnumLayout) :
    layout.labelled.map Prod.snd = layout.labels := by
  simp [labelled, labels, Function.comp_def]

/-- The value is a member and the document its label. -/
def Stands (layout : EnumLayout) (type : TypeName) (v : Value) (j : Json) : Prop :=
  ∃ m ∈ layout.members, v = .enum type m.ident ∧ j = .str m.label

theorem exists_labelled_iff :
    (∃ m ∈ layout.labelled, v = .enum type m.1 ∧ j = .str m.2) ↔ layout.Stands type v j := by
  simp [labelled, Stands]

theorem Valid.encodeWith_iff (h : layout.Valid) :
    (Codec.enumeration type layout.labelled).encodeWith enc scope v = pure j ↔
      layout.Stands type v j := by
  have hiff : Scalar.encodeEnum type layout.labelled v = .ok j ↔ _ :=
    Scalar.encodeEnum_eq_ok_iff (map_fst_labelled layout ▸ h.idents)
  rw [← exists_labelled_iff, ← hiff, Codec.encodeWith]
  constructor
  · exact Encoding.eq_of_ofExcept
  · intro he
    rw [he]
    rfl

theorem Valid.decodeWith_iff (h : layout.Valid) :
    (Codec.enumeration type layout.labelled).decodeWith dec scope j = .ok v ↔
      layout.Stands type v j := by
  have hiff : Scalar.decodeEnum type layout.labelled j = .ok v ↔ _ :=
    Scalar.decodeEnum_eq_ok_iff (map_snd_labelled layout ▸ h.labels)
  rw [← exists_labelled_iff, ← hiff, Codec.decodeWith]
  constructor
  · exact Decoding.eq_of_ofExcept
  · intro hd
    rw [hd]
    rfl

theorem run_ofLayout_eq_answer_iff :
    (Deriving.ofLayout settings term (.enumeration layout)).run = .answer (.ok codec) ↔
      layout.Valid ∧ codec = .enumeration term.head layout.labelled := by
  rw [← check_iff, Deriving.ofLayout]
  cases layout.check with
  | error fault => exact ⟨nofun, nofun⟩
  | ok =>
    constructor
    · rintro ⟨⟩
      exact ⟨rfl, rfl⟩
    · rintro ⟨-, rfl⟩
      rfl

/-- An enumeration has a codec just if identifiers are distinct, and so are labels. The codec writes
each member as its label and reads that as the member, and writes what it reads from a text as the
text. The labels are all texts that it reads, whether they are identifiers of other members or not,
and for any other text it names the labels. The members are all values that it writes. -/
theorem labels_bijective (settings : Settings) (term : TypeTerm) (layout : EnumLayout) :
    ((∃ codec, (Deriving.ofLayout settings term (.enumeration layout)).run = .answer (.ok codec)) ↔
      (layout.members.map EnumMember.ident).Nodup ∧ layout.labels.Nodup) ∧
    ∀ codec enc dec scope,
      (Deriving.ofLayout settings term (.enumeration layout)).run = .answer (.ok codec) →
      (∀ m ∈ layout.members,
        codec.encodeWith enc scope (.enum term.head m.ident) = pure (.str m.label) ∧
        codec.decodeWith dec scope (.str m.label) = .ok (.enum term.head m.ident)) ∧
      (∀ label v, codec.decodeWith dec scope (.str label) = .ok v →
        codec.encodeWith enc scope v = pure (.str label)) ∧
      (∀ label, (∃ v, codec.decodeWith dec scope (.str label) = .ok v) ↔
        label ∈ layout.labels) ∧
      (∀ label, label ∉ layout.labels →
        codec.decodeWith dec scope (.str label) = .fail (.unknownLabel label layout.labels)) ∧
      ∀ v, (∃ j, codec.encodeWith enc scope v = pure j) ↔
        ∃ m ∈ layout.members, v = .enum term.head m.ident := by
  refine ⟨?_, fun codec enc dec scope h => ?_⟩
  · simp only [run_ofLayout_eq_answer_iff, exists_and_left, exists_eq, and_true]
    exact ⟨fun h => ⟨h.idents, h.labels⟩, fun h => ⟨h.1, h.2⟩⟩
  obtain ⟨hvalid, rfl⟩ := run_ofLayout_eq_answer_iff.1 h
  simp only [hvalid.encodeWith_iff, hvalid.decodeWith_iff]
  refine ⟨fun m hm => ?_, fun label v h => h, fun label => ?_, fun label hnot => ?_, fun v => ?_⟩
  · exact ⟨⟨m, hm, rfl, rfl⟩, m, hm, rfl, rfl⟩
  · rw [labels, List.mem_map]
    constructor
    · rintro ⟨v, m, hm, -, hlabel⟩
      exact ⟨m, hm, (Json.str.inj hlabel).symm⟩
    · rintro ⟨m, hm, rfl⟩
      exact ⟨_, m, hm, rfl, rfl⟩
  · rw [← map_snd_labelled] at hnot ⊢
    rw [Codec.decodeWith, Scalar.decodeEnum_of_not_mem _ hnot]
    rfl
  · constructor
    · rintro ⟨_, m, hm, rfl, -⟩
      exact ⟨m, hm, rfl⟩
    · rintro ⟨m, hm, rfl⟩
      exact ⟨_, m, hm, rfl, rfl⟩

/-- Two colours have each other's names for labels, and one hides its name behind a label. -/
def crossed : EnumLayout where
  members := [⟨"RED", some "GREEN"⟩, ⟨"GREEN", some "RED"⟩, ⟨"TEAL", some "cyan"⟩, ⟨"BLUE", none⟩]

theorem labels_bijective_crossed :
    ∃ codec, (Deriving.ofLayout {} ⟨"Color", []⟩ (.enumeration crossed)).run = .answer (.ok codec) ∧
      ∀ enc dec scope, codec.encodeWith enc scope (.enum "Color" "RED") = pure (.str "GREEN") ∧
        codec.decodeWith dec scope (.str "GREEN") = .ok (.enum "Color" "RED") ∧
        codec.decodeWith dec scope (.str "TEAL") =
          .fail (.unknownLabel "TEAL" ["GREEN", "RED", "cyan", "BLUE"]) := by
  obtain ⟨hbuilt, hcodec⟩ := labels_bijective {} ⟨"Color", []⟩ crossed
  obtain ⟨codec, hrun⟩ := hbuilt.2 ⟨by decide, by decide⟩
  refine ⟨codec, hrun, fun enc dec scope => ?_⟩
  obtain ⟨hmember, -, -, hother, -⟩ := hcodec codec enc dec scope hrun
  obtain ⟨hencode, hdecode⟩ := hmember ⟨"RED", some "GREEN"⟩ List.mem_cons_self
  exact ⟨hencode, hdecode, hother "TEAL" (by decide)⟩

end EnumLayout

end Typewire
