import Mathlib.Data.List.Nodup
import Typewire.Codec.Decode
import Typewire.Codec.Encode
import Typewire.Proofs.Layout.Validity

/-! # What a step does

A step of a codec succeeds if the nested codecs do on the parts, and only then. Here is on which.
-/

namespace Typewire

section Lists

variable {α β : Type} {R : α → β → Prop} {as : List α} {bs : List β}

theorem exists_right_of_forall₂ (h : List.Forall₂ R as bs) {a : α} (ha : a ∈ as) :
    ∃ b ∈ bs, R a b := by
  induction h with
  | nil => cases ha
  | cons hab _ ih =>
    rcases List.mem_cons.1 ha with rfl | ha
    · exact ⟨_, List.mem_cons_self, hab⟩
    · obtain ⟨b, hb, hr⟩ := ih ha
      exact ⟨b, List.mem_cons_of_mem _ hb, hr⟩

theorem exists_left_of_forall₂ (h : List.Forall₂ R as bs) {b : β} (hb : b ∈ bs) :
    ∃ a ∈ as, R a b :=
  exists_right_of_forall₂ h.flip hb

theorem exists_forall₂ (h : ∀ a ∈ as, ∃ b, R a b) : ∃ bs, List.Forall₂ R as bs := by
  induction as with
  | nil => exact ⟨[], .nil⟩
  | cons a as ih =>
    obtain ⟨⟨b, hb⟩, h⟩ := List.forall_mem_cons.1 h
    obtain ⟨bs, hbs⟩ := ih h
    exact ⟨b :: bs, .cons hb hbs⟩

theorem pairwise_of_forall₂ {S : α → α → Prop} {T : β → β → Prop} (h : List.Forall₂ R as bs)
    (hS : ∀ a a' b b', R a b → R a' b' → T b b' → S a a') (hT : bs.Pairwise T) :
    as.Pairwise S := by
  induction h with
  | nil => exact .nil
  | cons hab hrest ih =>
    obtain ⟨hb, hT⟩ := List.pairwise_cons.1 hT
    refine .cons (fun a' ha' => ?_) (ih hT)
    obtain ⟨b', hb', hr⟩ := exists_right_of_forall₂ hrest ha'
    exact hS _ _ _ _ hab hr (hb b' hb')

end Lists

section Distinct

variable {α β : Type} [DecidableEq β] {f : α → β} {l : List α} {a : α}

theorem filter_of_nodup (h : (l.map f).Nodup) (ha : a ∈ l) :
    (l.filter fun b => f b = f a) = [a] := by
  induction l with
  | nil => cases ha
  | cons b l ih =>
    obtain ⟨hb, hl⟩ := List.nodup_cons.1 h
    rcases List.mem_cons.1 ha with rfl | ha
    · have hnone : (l.filter fun b => f b = f a) = [] :=
        List.filter_eq_nil_iff.2 fun b hm => by
          simpa using fun he : f b = f a => hb (he ▸ List.mem_map_of_mem hm)
      rw [List.filter_cons_of_pos (by simp), hnone]
    · have hne : f b ≠ f a := fun he => hb (he ▸ List.mem_map_of_mem ha)
      rw [List.filter_cons_of_neg (by simpa using hne), ih hl ha]

theorem find?_of_nodup (h : (l.map f).Nodup) (ha : a ∈ l) :
    (l.find? fun b => f b = f a) = some a := by
  rw [← List.head?_filter, filter_of_nodup h ha, List.head?_cons]

theorem exists_byKey {γ : Type} [Inhabited γ] (hn : (l.map f).Nodup) {Q : α → Prop}
    {P : α → γ → Prop} (h : ∀ a ∈ l, Q a → ∃ x, P a x) :
    ∃ image : β → γ, ∀ a ∈ l, Q a → P a (image (f a)) := by
  choose! choice hchoice using h
  refine ⟨fun key => ((l.find? fun b => f b = key).map choice).getD default, fun a ha hq => ?_⟩
  simpa only [find?_of_nodup hn ha, Option.map_some, Option.getD_some] using hchoice a ha hq

end Distinct

namespace Encoding

variable {α β : Type} {x : Encoding α} {a : α} {b : β}

theorem exists_of_bind {f : α → Encoding β} (h : x >>= f = pure b) :
    ∃ a, x = pure a ∧ f a = pure b := by
  rcases x with _ | e | a
  · cases h
  · cases h
  · exact ⟨a, rfl, h⟩

theorem pure_injective : Function.Injective (pure : α → Encoding α) := by
  intro a a' h
  cases h
  rfl

theorem eq_of_run (h : x.run = some (.ok a)) : x = pure a := h

theorem under_eq_pure_iff {step : Step} : x.under step = pure a ↔ x = pure a := by
  rcases x with _ | e | a'
  · exact Iff.rfl
  · exact ⟨nofun, nofun⟩
  · exact Iff.rfl

theorem eq_of_ofExcept {r : Except EncodeCause α} (h : ofExcept r = pure a) : r = .ok a := by
  cases r with
  | error e => cases h
  | ok a' =>
    cases h
    rfl

end Encoding

namespace Decoding

variable {α : Type} {a : α}

theorem under_eq_ok_iff {x : Decoding α} {step : Step} : x.under step = .ok a ↔ x = .ok a := by
  cases x with
  | error e => exact ⟨nofun, nofun⟩
  | ok a' => exact Iff.rfl

theorem eq_of_ofExcept {r : Except DecodeCause α} (h : ofExcept r = .ok a) : r = .ok a := by
  cases r with
  | error e => cases h
  | ok a' =>
    cases h
    rfl

end Decoding

namespace Scalar

variable {type : TypeName} {ms : List (String × String)} {m : String × String} {v : Value}
  {j : Json}

theorem exists_of_encodeEnum (h : encodeEnum type ms v = .ok j) :
    ∃ m ∈ ms, v = .enum type m.1 ∧ j = .str m.2 := by
  cases v with
  | enum t member =>
    rw [encodeEnum] at h
    split at h
    · subst t
      split at h
      · rename_i m hm
        cases h
        have hident : m.1 = member := by simpa using List.find?_some hm
        exact ⟨m, List.mem_of_find?_eq_some hm, by rw [hident], rfl⟩
      · cases h
    · cases h
  | _ => cases h

theorem exists_of_decodeEnum (h : decodeEnum type ms j = .ok v) :
    ∃ m ∈ ms, v = .enum type m.1 ∧ j = .str m.2 := by
  cases j with
  | str label =>
    rw [decodeEnum] at h
    split at h
    · rename_i m hm
      cases h
      have hlabel : m.2 = label := by simpa using List.find?_some hm
      exact ⟨m, List.mem_of_find?_eq_some hm, rfl, by rw [hlabel]⟩
    · cases h
  | _ => cases h

theorem encodeEnum_of_mem (type : TypeName) (h : (ms.map Prod.fst).Nodup) (hm : m ∈ ms) :
    encodeEnum type ms (.enum type m.1) = .ok (.str m.2) := by
  rw [encodeEnum, if_pos rfl, find?_of_nodup h hm]

theorem decodeEnum_of_mem (type : TypeName) (h : (ms.map Prod.snd).Nodup) (hm : m ∈ ms) :
    decodeEnum type ms (.str m.2) = .ok (.enum type m.1) := by
  rw [decodeEnum, find?_of_nodup h hm]

end Scalar

namespace Codec

section Encode

variable {enc : CodecRef → Value → Encoding Json} {ref key value : CodecRef}

/-- A part of a container became the document. Null stays null. -/
structure PartEncodes (enc : CodecRef → Value → Encoding Json) (ref : CodecRef) (v : Value)
    (j : Json) : Prop where
  null : v = .null → j = .null
  encoded : v ≠ .null → enc ref v = pure j

theorem encodePart_eq_pure_iff {step : Step} {v : Value} {j : Json} :
    encodePart enc ref step v = pure j ↔ PartEncodes enc ref v j := by
  rw [encodePart]
  split
  · rename_i hn
    have hn := Value.isNull_iff.1 hn
    constructor
    · intro h
      cases h
      exact ⟨fun _ => rfl, fun hne => absurd hn hne⟩
    · intro h
      rw [h.null hn]
  · rename_i hn
    rw [Encoding.under_eq_pure_iff]
    have hn : v ≠ .null := fun he => hn (Value.isNull_iff.2 he)
    exact ⟨fun h => ⟨fun he => absurd he hn, fun _ => h⟩, fun h => h.encoded hn⟩

theorem encodeItems_eq_pure_iff {index : Nat} {vs : List Value} {js : List Json} :
    encodeItems enc ref index vs = pure js ↔ List.Forall₂ (PartEncodes enc ref) vs js := by
  constructor
  · intro h
    induction vs generalizing index js with
    | nil =>
      cases h
      exact .nil
    | cons v vs ih =>
      rw [encodeItems] at h
      obtain ⟨j, hj, h⟩ := Encoding.exists_of_bind h
      obtain ⟨rest, hrest, h⟩ := Encoding.exists_of_bind h
      cases h
      exact .cons (encodePart_eq_pure_iff.1 hj) (ih hrest)
  · intro h
    induction h generalizing index with
    | nil => rfl
    | cons hpart _ ih =>
      rw [encodeItems, encodePart_eq_pure_iff.2 hpart, pure_bind, ih, pure_bind]

theorem exists_entry_of_encodeEntries {backed : Bool} {done members : Members Json}
    {entries : List (Value × Value)}
    (h : encodeEntries enc backed key value done entries = pure members) :
    ∀ e ∈ members, e ∈ done ∨ ∃ entry ∈ entries, PartEncodes enc value entry.2 e.2 := by
  induction entries generalizing done with
  | nil =>
    cases h
    exact fun e he => .inl he
  | cons entry entries ih =>
    rw [encodeEntries] at h
    obtain ⟨label, -, h⟩ := Encoding.exists_of_bind h
    obtain ⟨j, hj, h⟩ := Encoding.exists_of_bind h
    split at h
    · cases h
    · intro e he
      rcases ih h e he with he | ⟨entry', hentry, hpart⟩
      · rcases Members.mem_insert he with rfl | he
        · exact .inr ⟨entry, List.mem_cons_self, encodePart_eq_pure_iff.1 hj⟩
        · exact .inl he
      · exact .inr ⟨entry', List.mem_cons_of_mem _ hentry, hpart⟩

structure FieldsEncode (enc : CodecRef → Value → Encoding Json) (v : Value)
    (fs : List FieldCodec) (members : List (String × Json)) : Prop where
  names : (Members.names members).Sublist (fs.map fun f => f.property.name)
  member : ∀ e ∈ members, ∃ f ∈ fs, f.property.name = e.1 ∧ f.property.serializable = true ∧
    ∃ field, f.property.accessor.get v = .ok field ∧ enc f.codec field = pure e.2
  mandatory : ∀ f ∈ fs, f.property.serializable = true → f.property.mandatory = true →
    f.property.name ∈ Members.names members

theorem FieldsEncode.skip {v : Value} {f : FieldCodec} {fs : List FieldCodec}
    {members : List (String × Json)} (h : FieldsEncode enc v fs members)
    (hf : f.property.serializable = true → f.property.mandatory = false) :
    FieldsEncode enc v (f :: fs) members := by
  refine ⟨h.names.cons _, fun e he => ?_, fun g hg hs hm => ?_⟩
  · obtain ⟨g, hg, hmember⟩ := h.member e he
    exact ⟨g, List.mem_cons_of_mem _ hg, hmember⟩
  · rcases List.mem_cons.1 hg with rfl | hg
    · rw [hf hs] at hm
      cases hm
    · exact h.mandatory g hg hs hm

theorem fieldsEncode_of_encodeFields {owner : TypeTerm} {v : Value} {fs : List FieldCodec}
    {members : List (String × Json)} (h : encodeFields enc owner v fs = pure members) :
    FieldsEncode enc v fs members := by
  induction fs generalizing members with
  | nil =>
    cases h
    refine ⟨List.Sublist.refl _, ?_, ?_⟩ <;> simp
  | cons f fs ih =>
    rw [encodeFields] at h
    split at h
    · rename_i hs
      refine (ih h).skip fun hs' => ?_
      rw [hs'] at hs
      cases hs
    · rename_i hs
      split at h
      · cases h
      · split at h
        · cases h
        · rename_i hm
          exact (ih h).skip fun _ => Bool.not_eq_true _ ▸ hm
      · rename_i field _ hget
        obtain ⟨j, hj, h⟩ := Encoding.exists_of_bind h
        obtain ⟨rest, hrest, h⟩ := Encoding.exists_of_bind h
        cases h
        have ih := ih hrest
        refine ⟨ih.names.cons_cons _, fun e he => ?_, fun g hg hs hm => ?_⟩
        · rcases List.mem_cons.1 he with rfl | he
          · refine ⟨f, List.mem_cons_self, rfl, ?_, field, hget, Encoding.under_eq_pure_iff.1 hj⟩
            simpa using hs
          · obtain ⟨g, hg, hmember⟩ := ih.member e he
            exact ⟨g, List.mem_cons_of_mem _ hg, hmember⟩
        · rcases List.mem_cons.1 hg with rfl | hg
          · exact List.mem_cons_self
          · exact List.mem_cons_of_mem _ (ih.mandatory g hg hs hm)

end Encode

section Decode

variable {dec : CodecRef → Json → Decoding Value} {ref key value : CodecRef}

/-- A part of a container came from the document. Null stays null. -/
structure PartDecodes (dec : CodecRef → Json → Decoding Value) (ref : CodecRef) (j : Json)
    (v : Value) : Prop where
  null : j.isNull = true → v = .null
  decoded : j.isNull = false → dec ref j = .ok v

theorem decodePart_eq_ok_iff {step : Step} {j : Json} {v : Value} :
    decodePart dec ref step j = .ok v ↔ PartDecodes dec ref j v := by
  rw [decodePart]
  split
  · rename_i hn
    constructor
    · intro h
      cases h
      exact ⟨fun _ => rfl, fun hf => by simp [hn] at hf⟩
    · intro h
      rw [h.null hn]
  · rename_i hn
    rw [Decoding.under_eq_ok_iff]
    exact ⟨fun h => ⟨fun ht => absurd ht hn, fun _ => h⟩, fun h => h.decoded (by simpa using hn)⟩

theorem decodeItems_eq_ok_iff {index : Nat} {js : List Json} {vs : List Value} :
    decodeItems dec ref index js = .ok vs ↔ List.Forall₂ (PartDecodes dec ref) js vs := by
  constructor
  · intro h
    induction js generalizing index vs with
    | nil =>
      cases h
      exact .nil
    | cons j js ih =>
      rw [decodeItems] at h
      obtain ⟨v, hv, h⟩ := Except.exists_of_bind h
      obtain ⟨rest, hrest, h⟩ := Except.exists_of_bind h
      cases h
      exact .cons (decodePart_eq_ok_iff.1 hv) (ih hrest)
  · intro h
    induction h generalizing index with
    | nil => rfl
    | cons hpart _ ih =>
      rw [decodeItems, decodePart_eq_ok_iff.2 hpart, ih]
      rfl

theorem decodeEntries_eq_ok_iff {members : Members Json} {entries : List (Value × Value)} :
    decodeEntries dec key value members = .ok entries ↔
      List.Forall₂ (fun e entry => dec key (.str e.1) = .ok entry.1 ∧
        PartDecodes dec value e.2 entry.2) members entries := by
  constructor
  · intro h
    induction members generalizing entries with
    | nil =>
      cases h
      exact .nil
    | cons e members ih =>
      rw [decodeEntries] at h
      obtain ⟨k, hk, h⟩ := Except.exists_of_bind h
      obtain ⟨v, hv, h⟩ := Except.exists_of_bind h
      obtain ⟨rest, hrest, h⟩ := Except.exists_of_bind h
      cases h
      exact .cons ⟨Decoding.under_eq_ok_iff.1 hk, decodePart_eq_ok_iff.1 hv⟩ (ih hrest)
  · intro h
    induction h with
    | nil => rfl
    | cons hpart _ ih =>
      rw [decodeEntries, hpart.1, decodePart_eq_ok_iff.2 hpart.2, ih]
      rfl

structure FieldsDecode (dec : CodecRef → Json → Decoding Value) (members : Members Json)
    (fs : List FieldCodec) (values : List (Property × Value)) : Prop where
  names : (values.map fun e => e.1.name).Sublist (fs.map fun f => f.property.name)
  value : ∀ e ∈ values, ∃ f ∈ fs, f.property = e.1 ∧ f.property.deserializable = true ∧
    ∃ j, Members.get? f.property.name members = some j ∧ j.isNull = false ∧ dec f.codec j = .ok e.2
  present : ∀ f ∈ fs, f.property.deserializable = true → ∀ j,
    Members.get? f.property.name members = some j → j.isNull = false →
      ∃ v, (f.property, v) ∈ values ∧ dec f.codec j = .ok v
  mandatory : ∀ f ∈ fs, f.property.deserializable = true → f.property.mandatory = true →
    ∃ j, Members.get? f.property.name members = some j ∧ j.isNull = false

theorem FieldsDecode.skip {members : Members Json} {f : FieldCodec} {fs : List FieldCodec}
    {values : List (Property × Value)} (h : FieldsDecode dec members fs values)
    (hf : f.property.deserializable = true → f.property.mandatory = false ∧
      ∀ j, Members.get? f.property.name members = some j → j.isNull = true) :
    FieldsDecode dec members (f :: fs) values := by
  refine ⟨h.names.cons _, fun e he => ?_, fun g hg hd j hj hn => ?_, fun g hg hd hm => ?_⟩
  · obtain ⟨g, hg, hvalue⟩ := h.value e he
    exact ⟨g, List.mem_cons_of_mem _ hg, hvalue⟩
  · rcases List.mem_cons.1 hg with rfl | hg
    · rw [(hf hd).2 j hj] at hn
      cases hn
    · exact h.present g hg hd j hj hn
  · rcases List.mem_cons.1 hg with rfl | hg
    · rw [(hf hd).1] at hm
      cases hm
    · exact h.mandatory g hg hd hm

theorem fieldsDecode_of_decodeFields {owner : TypeTerm} {members : Members Json}
    {fs : List FieldCodec} {values : List (Property × Value)}
    (h : decodeFields dec owner members fs = .ok values) : FieldsDecode dec members fs values := by
  induction fs generalizing values with
  | nil =>
    cases h
    constructor <;> simp
  | cons f fs ih =>
    rw [decodeFields] at h
    split at h
    · rename_i hd
      refine (ih h).skip fun hd' => ?_
      rw [hd'] at hd
      cases hd
    · rename_i hd
      split at h
      · rename_i hnone
        split at h
        · cases h
        · rename_i hm
          refine (ih h).skip fun _ => ⟨Bool.not_eq_true _ ▸ hm, fun j hj => ?_⟩
          rw [hj, Option.filter_eq_none_iff] at hnone
          simpa using hnone j rfl
      · rename_i i hi
        obtain ⟨hi, hnull⟩ := Option.filter_eq_some_iff.1 hi
        obtain ⟨v, hv, h⟩ := Except.exists_of_bind h
        obtain ⟨rest, hrest, h⟩ := Except.exists_of_bind h
        cases h
        have ih := ih hrest
        have hv := Decoding.under_eq_ok_iff.1 hv
        have hnull : i.isNull = false := by simpa using hnull
        refine ⟨ih.names.cons_cons _, fun e he => ?_, fun g hg hd j hj hn => ?_,
          fun g hg hd hm => ?_⟩
        · rcases List.mem_cons.1 he with rfl | he
          · exact ⟨f, List.mem_cons_self, rfl, by simpa using hd, i, hi, hnull, hv⟩
          · obtain ⟨g, hg, hvalue⟩ := ih.value e he
            exact ⟨g, List.mem_cons_of_mem _ hg, hvalue⟩
        · rcases List.mem_cons.1 hg with rfl | hg
          · cases hi.symm.trans hj
            exact ⟨v, List.mem_cons_self, hv⟩
          · obtain ⟨w, hw, hdec⟩ := ih.present g hg hd j hj hn
            exact ⟨w, List.mem_cons_of_mem _ hw, hdec⟩
        · rcases List.mem_cons.1 hg with rfl | hg
          · exact ⟨i, hi, hnull⟩
          · exact ih.mandatory g hg hd hm

theorem exists_of_decodeRecord {owner : TypeTerm} {constructor : Constructor}
    {fs : List FieldCodec} {strict : Bool} {members : Members Json} {v : Value}
    (h : decodeRecord dec owner constructor fs strict members = .ok v) :
    (strict = true → ∀ name ∈ Members.names members, reads fs name = true) ∧
      ∃ values instance', FieldsDecode dec members fs values ∧
        constructor.construct (arguments constructor.arity values) = .ok instance' ∧
        applySetters owner instance' values = .ok v := by
  rw [decodeRecord] at h
  split at h
  · cases h
  · rename_i hnone
    obtain ⟨values, hvalues, h⟩ := Except.exists_of_bind h
    split at h
    · rename_i instance' hbuilt
      refine ⟨fun hstrict name hn => ?_, values, instance', fieldsDecode_of_decodeFields hvalues,
        hbuilt, h⟩
      simpa [hstrict] using List.find?_eq_none.1 hnone name hn
    · cases h

theorem exists_get?_of_present {branches : List BranchCodec} {members : Members Json}
    {b : BranchCodec} (hb : presentBranches branches members = [b]) :
    b ∈ branches ∧ ∃ i, Members.get? b.discriminator members = some i := by
  have hmem : b ∈ presentBranches branches members := hb ▸ List.mem_singleton_self b
  obtain ⟨hmem, hhas⟩ := List.mem_filter.1 hmem
  exact ⟨hmem, Option.isSome_iff_exists.1 hhas⟩

theorem exists_of_decodeUnion {branches : List BranchCodec} {members : Members Json} {v : Value}
    (h : decodeUnion dec branches members = .ok v) :
    ∃ b j, presentBranches branches members = [b] ∧
      Members.get? b.discriminator members = some j ∧ dec b.codec j = .ok v := by
  rw [decodeUnion] at h
  split at h
  · rename_i b hb
    obtain ⟨-, j, hj⟩ := exists_get?_of_present hb
    rw [hj, Option.getD_some] at h
    exact ⟨b, j, hb, hj, Decoding.under_eq_ok_iff.1 h⟩
  · cases h

end Decode

end Codec

end Typewire
