import Typewire.Proofs.Catalog.Describe
import Typewire.Proofs.Catalog.Record
import Typewire.Proofs.Codec.RoundTrip

/-! # What a document is read as

Which value a document stands for at a term of a catalogue, said place by place, without codecs and
without a bound on calls.
-/

namespace Typewire

namespace Catalog

/-- The members fill the fields: those that count are of properties that are read, and each
mandatory one is there. A member that is null counts as absent. -/
structure Fills (s : Settings) (layout : RecordLayout) (members : Members Json)
    (fields : Members Value) : Prop where
  proper : Fields.Proper fields
  known : s.denyUnknownFields = true → ∀ name ∈ Members.names members,
    ∃ p ∈ layout.properties, p.name = name ∧ p.deserializable = true
  mandatory : ∀ p ∈ layout.properties, p.deserializable = true → p.mandatory = true →
    ∃ j, Members.get? p.name members = some j ∧ j.isNull = false
  member : ∀ name, Fields.get name fields ≠ .null → ∃ p ∈ layout.properties, p.name = name ∧
    p.deserializable = true ∧ ∃ j, Members.get? name members = some j ∧ j.isNull = false

variable (c : Catalog) (s : Settings)

/-- The document is read at the term as the value. Nulls in containers stay. -/
inductive Reads : TypeTerm → Json → Value → Prop
  | atomic {term : TypeTerm} {kind : AtomicKind} {j : Json} {v : Value} :
      c.layout? term = some (.atomic kind) → Scalar.decodeAtomic kind j = .ok v → Reads term j v
  | enumeration {term : TypeTerm} {layout : EnumLayout} {m : EnumMember} :
      c.layout? term = some (.enumeration layout) → m ∈ layout.members →
      Reads term (.str m.label) (.enum term.head m.ident)
  | sequence {term part : TypeTerm} {container : Container} {element : TypeScheme}
      {js : List Json} {vs : List Value} : c.layout? term = some (.sequence container element) →
      s.part? term element = some part → js.length = vs.length →
      (∀ e ∈ js.zip vs, e.1.isNull = true → e.2 = .null) →
      (∀ e ∈ js.zip vs, e.1.isNull = false → Reads part e.1 e.2) →
      Reads term (.arr js) (.sequence container vs)
  | map {term keyPart valuePart : TypeTerm} {key value : TypeScheme}
      {members : List (String × Json)} {entries : List (Value × Value)} :
      c.layout? term = some (.map key value) → s.part? term key = some keyPart →
      s.part? term value = some valuePart → (c.layout? keyPart = some (.atomic .string) ∨
        ∃ layout, c.layout? keyPart = some (.enumeration layout)) →
      members.length = entries.length →
      (∀ e ∈ members.zip entries, Reads keyPart (.str e.1.1) e.2.1) →
      (∀ e ∈ members.zip entries, e.1.2.isNull = true → e.2.2 = .null) →
      (∀ e ∈ members.zip entries, e.1.2.isNull = false → Reads valuePart e.1.2 e.2.2) →
      Reads term (.obj members) (.map entries)
  | record {term : TypeTerm} {layout : RecordLayout} {members : List (String × Json)}
      {fields : List (String × Value)} : c.layout? term = some (.record layout) →
      Fills s layout members fields →
      (∀ p ∈ layout.properties, p.deserializable = true → ∀ part j,
        s.part? term p.type = some part → Members.get? p.name members = some j →
          j.isNull = false → Reads part j (Fields.get p.name fields)) →
      Reads term (.obj members) (.object term.head fields)
  | union {term part : TypeTerm} {layout : UnionLayout} {variant : Variant}
      {members : List (String × Json)} {j : Json} {v : Value} :
      c.layout? term = some (.union layout) → variant ∈ layout.variants →
      s.part? term variant.target = some part →
      Members.get? variant.discriminator members = some j →
      (∀ w ∈ layout.variants, Members.has w.discriminator members = true → w = variant) →
      Reads part j v → Reads term (.obj members) v

variable {c s} {term part : TypeTerm} {layout : Layout} {codec : Codec} {j : Json} {v : Value}

theorem ne_null_of_decodeAtomic {kind : AtomicKind} (h : Scalar.decodeAtomic kind j = .ok v) :
    v ≠ .null := by
  unfold Scalar.decodeAtomic at h
  split at h
  case h_5 =>
    split at h
    · split at h
      · cases h
        exact Value.noConfusion
      · cases h
    · cases h
  case h_6 =>
    obtain ⟨i, -, rfl⟩ := Except.exists_of_map h
    exact Value.noConfusion
  all_goals
    cases h
    try exact Value.noConfusion

theorem Reads.ne_null (h : c.Reads s term j v) : v ≠ .null := by
  induction h with
  | atomic _ h => exact ne_null_of_decodeAtomic h
  | union _ _ _ _ _ _ ih => exact ih
  | _ => exact Value.noConfusion

theorem Fills.read {layout : RecordLayout} {members : Members Json} {fields : Members Value}
    (h : Fills s layout members fields) (hn : (layout.properties.map Property.name).Nodup)
    {p : Property} (hp : p ∈ layout.properties) (hne : Fields.get p.name fields ≠ .null) :
    p.deserializable = true ∧ ∃ j, Members.get? p.name members = some j ∧ j.isNull = false := by
  obtain ⟨q, hq, hname, hread⟩ := h.member _ hne
  exact List.inj_on_of_nodup_map hn hq hp hname ▸ hread

section Decode

variable {dec : TypeTerm → Json → Decoding Value}
  (hdec : ∀ scheme part, s.part? term scheme = some part → ∀ i w,
    dec part i = .ok w → c.Reads s part i w)

include hdec

theorem reads_of_decodeItems {container : Container} {element : TypeScheme} {js : List Json}
    {vs : List Value} (hl : c.layout? term = some (.sequence container element))
    (hp : s.part? term element = some part)
    (h : Codec.decodeItems (fun ref => dec ref.term) ⟨part, 0⟩ 0 js = .ok vs) :
    c.Reads s term (.arr js) (.sequence container vs) := by
  obtain ⟨hlength, hparts⟩ := List.forall₂_iff_zip.1 (Codec.decodeItems_eq_ok_iff.1 h)
  exact .sequence hl hp hlength (fun e he => (hparts he).null)
    fun e he hn => hdec _ _ hp _ _ ((hparts he).decoded hn)

theorem reads_of_decodeEntries {key value : TypeScheme} {keyPart valuePart : TypeTerm}
    {members : Members Json} {entries : List (Value × Value)}
    (hl : c.layout? term = some (.map key value)) (hk : s.part? term key = some keyPart)
    (hv : s.part? term value = some valuePart)
    (hs : (c.reference s).scope.isStringBacked ⟨keyPart, 0⟩ = true)
    (h : Codec.decodeEntries (fun ref => dec ref.term) ⟨keyPart, 0⟩ ⟨valuePart, 0⟩ members =
      .ok entries) : c.Reads s term (.obj members) (.map entries) := by
  obtain ⟨hlength, hparts⟩ := List.forall₂_iff_zip.1 (Codec.decodeEntries_eq_ok_iff.1 h)
  exact .map hl hk hv (layout?_of_isStringBacked (Reference.canonical_of_part? hk) hs) hlength
    (fun e he => hdec _ _ hk _ _ (hparts he).1) (fun e he => (hparts he).2.null)
    fun e he hn => hdec _ _ hv _ _ ((hparts he).2.decoded hn)

theorem reads_of_decodeRecord (hm : c.Standard) {layout : RecordLayout} {fs : List FieldCodec}
    {members : Members Json} (hl : c.layout? term = some (.record layout))
    (hn : (layout.properties.map Property.name).Nodup)
    (hfs : fs.map FieldCodec.property = layout.properties)
    (hparts : ∀ f ∈ fs, s.part? term f.property.type = some f.codec.term)
    (h : Codec.decodeRecord (fun ref => dec ref.term) term layout.constructor fs
      s.denyUnknownFields members = .ok v) : c.Reads s term (.obj members) v := by
  have hmem : ∀ f ∈ fs, f.property ∈ layout.properties := fun f hf => hfs ▸ List.mem_map_of_mem hf
  obtain ⟨fields, rfl, hpop⟩ := (hm.record hl).assembled.exists_of_decodeRecord hn hfs h
  refine .record hl ⟨hpop.proper, fun hstrict name hname => ?_, fun p hp hd hmand => ?_,
    fun name hne => ?_⟩ fun p hp hd part j hpart hj hnull => ?_
  · obtain ⟨f, hf, hread⟩ := List.any_eq_true.1 (hpop.known hstrict name hname)
    simp only [Bool.and_eq_true, decide_eq_true_iff] at hread
    exact ⟨f.property, hmem f hf, hread.2, hread.1⟩
  · obtain ⟨f, hf, rfl⟩ := List.mem_map.1 (hfs.symm ▸ hp)
    exact hpop.mandatory f hf hd hmand
  · obtain ⟨f, hf, hmember⟩ := hpop.member name hne
    exact ⟨_, hmem f hf, hmember⟩
  · obtain ⟨f, hf, rfl⟩ := List.mem_map.1 (hfs.symm ▸ hp)
    obtain rfl := Option.some.inj ((hparts f hf).symm.trans hpart)
    exact hdec _ _ hpart j _ (hpop.present f hf hd j hj hnull)

theorem reads_of_decodeUnion {layout : UnionLayout} {bs : List BranchCodec}
    {members : Members Json} (hl : c.layout? term = some (.union layout))
    (hn : layout.discriminators.Nodup)
    (hbs : List.Forall₂ (Reference.BranchOf s term) layout.variants bs)
    (h : Codec.decodeUnion (fun ref => dec ref.term) bs members = .ok v) :
    c.Reads s term (.obj members) v := by
  obtain ⟨b, j, hpresent, hget, hdecoded⟩ := Codec.exists_of_decodeUnion h
  have hb : b ∈ Codec.presentBranches bs members := hpresent ▸ List.mem_singleton_self b
  obtain ⟨variant, hv, hof⟩ := exists_left_of_forall₂ hbs (List.mem_filter.1 hb).1
  refine .union hl hv hof.part (hof.discriminator ▸ hget) (fun w hw hhas => ?_)
    (hdec _ _ hof.part j v hdecoded)
  obtain ⟨b', hb', hof'⟩ := exists_right_of_forall₂ hbs hw
  have hmem : b' ∈ Codec.presentBranches bs members :=
    List.mem_filter.2 ⟨hb', hof'.discriminator ▸ hhas⟩
  rw [hpresent, List.mem_singleton] at hmem
  subst hmem
  exact List.inj_on_of_nodup_map hn hw hv (hof'.discriminator.symm.trans hof.discriminator)

theorem reads_of_decodeWith (hm : c.Standard) (hl : c.layout? term = some layout)
    (hd : Reference.describe? s term layout = some codec)
    (h : codec.decodeWith (fun ref => dec ref.term) (c.reference s).scope j = .ok v) :
    c.Reads s term j v := by
  cases layout with
  | atomic kind =>
    cases hd
    exact .atomic hl (Decoding.eq_of_ofExcept h)
  | record layout =>
    obtain ⟨hn, fs, rfl, hfs, hparts⟩ := Reference.describe?_record hd
    cases j with
    | obj members => exact reads_of_decodeRecord hdec hm hl hn hfs hparts h
    | _ => cases h
  | sequence container element =>
    obtain ⟨part, hp, rfl⟩ := Reference.describe?_sequence hd
    cases j with
    | arr items =>
      obtain ⟨vs, hvs, rfl⟩ := Except.exists_of_map h
      exact reads_of_decodeItems hdec hl hp hvs
    | _ => cases h
  | map key value =>
    obtain ⟨keyPart, valuePart, hk, hv, rfl⟩ := Reference.describe?_map hd
    cases j with
    | obj members =>
      rw [Codec.decodeWith] at h
      split at h
      · obtain ⟨entries, hentries, rfl⟩ := Except.exists_of_map h
        exact reads_of_decodeEntries hdec hl hk hv ‹_› hentries
      · cases h
    | _ => cases h
  | enumeration layout =>
    obtain ⟨-, -, rfl⟩ := Reference.describe?_enumeration hd
    obtain ⟨e, he, rfl, rfl⟩ := Scalar.exists_of_decodeEnum (Decoding.eq_of_ofExcept h)
    obtain ⟨m, hm, rfl⟩ := List.mem_map.1 he
    exact .enumeration hl hm
  | union layout =>
    obtain ⟨hn, bs, rfl, hbs⟩ := Reference.describe?_union hd
    cases j with
    | obj members => exact reads_of_decodeUnion hdec hl hn hbs h
    | _ => cases h
  | foreign => cases hd

end Decode

theorem reads_of_decodeWithin (hm : c.Standard) {calls : Nat} (hc : s.canonical term = term)
    (h : (c.reference s).decodeWithin calls term j = .ok v) : c.Reads s term j v := by
  induction calls generalizing term j v with
  | zero => cases h
  | succ calls ih =>
    rw [Reference.decodeWithin] at h
    split at h
    · cases h
    · rename_i codec hcodec
      obtain ⟨layout, hl, hd⟩ := exists_layout_of_codec? (hc ▸ hcodec)
      exact reads_of_decodeWith (fun _ _ hp _ _ => ih (Reference.canonical_of_part? hp)) hm hl hd h

theorem Fills.decodeRecord {dec : CodecRef → Json → Decoding Value} {layout : RecordLayout}
    {fs : List FieldCodec} {members : Members Json} {fields : Members Value}
    (h : Fills s layout members fields) (hs : layout.Standard term.head)
    (hn : (layout.properties.map Property.name).Nodup)
    (hfs : fs.map FieldCodec.property = layout.properties)
    (hdec : ∀ f ∈ fs, f.property.deserializable = true → ∀ j,
      Members.get? f.property.name members = some j → j.isNull = false →
        dec f.codec j = .ok (Fields.get f.property.name fields)) :
    Codec.decodeRecord dec term layout.constructor fs s.denyUnknownFields members =
      .ok (.object term.head fields) := by
  have hmem : ∀ f ∈ fs, f.property ∈ layout.properties := fun f hf => hfs ▸ List.mem_map_of_mem hf
  refine hs.assembled.decodeRecord hn hfs ⟨h.proper, fun hstrict name hname => ?_,
    fun f hf => h.mandatory _ (hmem f hf), hdec, fun name hne => ?_⟩
  · obtain ⟨p, hp, rfl, hd⟩ := h.known hstrict name hname
    obtain ⟨f, hf, rfl⟩ := List.mem_map.1 (hfs.symm ▸ hp)
    exact List.any_eq_true.2 ⟨f, hf, by simp [hd]⟩
  · obtain ⟨p, hp, rfl, hmember⟩ := h.member name hne
    obtain ⟨f, hf, rfl⟩ := List.mem_map.1 (hfs.symm ▸ hp)
    exact ⟨f, hf, rfl, hmember⟩

theorem decodeWithin_of_step (hc : c.Resolved s term) (hl : c.layout? term = some layout)
    (hd : Reference.describe? s term layout = some codec)
    (h : ∀ calls, j.depth ≤ calls →
      codec.decodeWith (fun ref => (c.reference s).decodeWithin calls ref.term)
        (c.reference s).scope j = .ok v) {calls : Nat} (hcalls : j.depth < calls) :
    (c.reference s).decodeWithin calls term j = .ok v := by
  obtain ⟨n, rfl⟩ := Nat.exists_eq_add_one.2 (Nat.zero_lt_of_lt hcalls)
  rw [hc.decodeWithin hl hd]
  exact h n (Nat.le_of_lt_succ hcalls)

/-- What is read is decoded, with calls for the depth of the document. -/
theorem Reads.decodeWithin (h : c.Reads s term j v) (hm : c.Standard)
    (hc : ∀ t, c.Reachable s term t → c.Resolved s t) {calls : Nat} (hcalls : j.depth < calls) :
    (c.reference s).decodeWithin calls term j = .ok v := by
  induction h generalizing calls with
  | atomic hl hatomic =>
    refine decodeWithin_of_step (hc _ .refl) hl rfl (fun n _ => ?_) hcalls
    rw [Codec.decodeWith, hatomic]
    rfl
  | enumeration hl hmem =>
    obtain ⟨codec, hd⟩ := (hc _ .refl).describe? hl
    obtain ⟨-, hlabels, rfl⟩ := Reference.describe?_enumeration hd
    refine decodeWithin_of_step (hc _ .refl) hl hd (fun n _ => ?_) hcalls
    rw [Codec.decodeWith, Scalar.decodeEnum_of_mem _ (by rwa [List.map_map])
      (List.mem_map_of_mem (f := fun m : EnumMember => (m.ident, m.label)) hmem)]
    rfl
  | sequence hl hp hlength hnull _ ih =>
    obtain ⟨codec, hd⟩ := (hc _ .refl).describe? hl
    obtain ⟨_, hp', rfl⟩ := Reference.describe?_sequence hd
    obtain rfl := Option.some.inj (hp'.symm.trans hp)
    refine decodeWithin_of_step (hc _ .refl) hl hd (fun n hn => ?_) hcalls
    rw [Codec.decodeWith, Codec.decodeItems_eq_ok_iff.2]
    · rfl
    refine List.forall₂_iff_zip.2 ⟨hlength, fun {i w} he => ⟨hnull _ he, fun hi => ?_⟩⟩
    have hdepth := Json.depth_le_of_mem_items (List.of_mem_zip he).1
    exact ih _ he hi (fun t ht => hc t (.head (.item hl hp) ht)) (Nat.lt_of_le_of_lt hdepth hn)
  | map hl hk hv hkind hlength _ hnull _ ihk ihv =>
    have hkeyPart := fun t ht => hc t (.head (.key hl hk) ht)
    obtain ⟨codec, hd⟩ := (hc _ .refl).describe? hl
    obtain ⟨_, _, hk', hv', rfl⟩ := Reference.describe?_map hd
    obtain rfl := Option.some.inj (hk'.symm.trans hk)
    obtain rfl := Option.some.inj (hv'.symm.trans hv)
    refine decodeWithin_of_step (hc _ .refl) hl hd (fun n hn => ?_) hcalls
    rw [Codec.decodeWith, isStringBacked_reference (hkeyPart _ .refl) hkind, if_pos rfl,
      Codec.decodeEntries_eq_ok_iff.2]
    · rfl
    refine List.forall₂_iff_zip.2 ⟨hlength, fun {e entry} he => ⟨?_, hnull _ he, fun hi => ?_⟩⟩
    · -- A key is read from a text, which has no depth.
      exact ihk _ he hkeyPart (Nat.lt_of_le_of_lt (Nat.zero_le _) hn)
    · have hdepth := Json.depth_le_of_mem_members (List.of_mem_zip he).1
      exact ihv _ he hi (fun t ht => hc t (.head (.entry hl hv) ht))
        (Nat.lt_of_le_of_lt hdepth hn)
  | record hl hfills _ ih =>
    obtain ⟨codec, hd⟩ := (hc _ .refl).describe? hl
    obtain ⟨hnodup, fs, rfl, hfs, hparts⟩ := Reference.describe?_record hd
    refine decodeWithin_of_step (hc _ .refl) hl hd (fun n hn => ?_) hcalls
    rw [Codec.decodeWith]
    refine hfills.decodeRecord (hm.record hl) hnodup hfs fun f hf hdes i hi hnull => ?_
    have hp : f.property ∈ _ := hfs ▸ List.mem_map_of_mem hf
    have hdepth := Json.depth_le_of_mem_members (Members.mem_of_get? hi)
    exact ih _ hp hdes _ _ (hparts f hf) hi hnull
      (fun t ht => hc t (.head (.field hl hp (hparts f hf)) ht)) (Nat.lt_of_le_of_lt hdepth hn)
  | union hl hv hp hj hone _ ih =>
    obtain ⟨codec, hd⟩ := (hc _ .refl).describe? hl
    obtain ⟨hnodup, bs, rfl, hbs⟩ := Reference.describe?_union hd
    obtain ⟨b, hb, hof⟩ := exists_right_of_forall₂ hbs hv
    obtain rfl := Option.some.inj (hof.part.symm.trans hp)
    refine decodeWithin_of_step (hc _ .refl) hl hd (fun n hn => ?_) hcalls
    rw [Codec.decodeWith]
    refine Codec.decodeUnion_eq (Reference.map_discriminator hbs ▸ hnodup) hb
      (hof.discriminator ▸ hj) (fun b' hb' hhas => ?_) ?_
    · obtain ⟨w, hw, hof'⟩ := exists_left_of_forall₂ hbs hb'
      rw [hof.discriminator, ← hone w hw (hof'.discriminator ▸ hhas), hof'.discriminator]
    · have hdepth := Json.depth_le_of_mem_members (Members.mem_of_get? hj)
      exact ih (fun t ht => hc t (.head (.variant hl hv hp) ht)) (Nat.lt_of_le_of_lt hdepth hn)

end Catalog

end Typewire
