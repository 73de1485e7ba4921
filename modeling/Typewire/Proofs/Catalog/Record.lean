import Typewire.Proofs.Catalog.Standard
import Typewire.Proofs.Codec.RoundTrip

/-! # Building records

The constructor of a record that is built field by field and the setters after it give an instance
with exactly the values that were decoded.
-/

namespace Typewire

namespace Codec

variable {values : List (Property × Value)} {value : String → Value}

@[simp] theorem length_place (args : List Value) (e : Property × Value) :
    (place args e).length = args.length := by
  unfold place
  split <;> simp

theorem getElem?_place (args : List Value) (e : Property × Value) {i : Nat}
    (hi : i < args.length) :
    (place args e)[i]? = if e.1.binding = .slot i then some e.2 else args[i]? := by
  unfold place
  split
  · rename_i index hb
    rw [hb, List.getElem?_set]
    by_cases he : index = i
    · simp [he, hi]
    · simp [he]
  · rename_i hb
    rw [if_neg (hb i)]

theorem getElem?_placeAll {i : Nat} {v : Value}
    (h : ∀ e ∈ values, e.1.binding = .slot i → e.2 = v) {args : List Value}
    (hi : i < args.length) :
    (values.foldl place args)[i]? =
      if ∃ e ∈ values, e.1.binding = .slot i then some v else args[i]? := by
  induction values generalizing args with
  | nil => simp
  | cons e es ih =>
    have ih := ih (fun e he => h e (List.mem_cons_of_mem _ he)) ((length_place args e).symm ▸ hi)
    rw [List.foldl_cons, ih, getElem?_place args e hi]
    by_cases he : e.1.binding = .slot i
    · simp [he, h e List.mem_cons_self he]
    · simp only [List.mem_cons, exists_eq_or_imp, he, false_or, if_false]

theorem length_arguments (arity : Nat) (values : List (Property × Value)) :
    (arguments arity values).length = arity := by
  suffices ∀ args, (values.foldl place args).length = args.length by
    rw [arguments, this, List.length_replicate]
  induction values with
  | nil => exact fun args => rfl
  | cons e es ih =>
    intro args
    rw [List.foldl_cons, ih, length_place]

theorem getElem?_arguments {arity i : Nat} {v : Value} (hi : i < arity)
    (h : ∀ e ∈ values, e.1.binding = .slot i → e.2 = v) :
    (arguments arity values)[i]? =
      some (if ∃ e ∈ values, e.1.binding = .slot i then v else .null) := by
  rw [arguments, getElem?_placeAll h (by simpa using hi)]
  split
  · rfl
  · simp [hi]

theorem applySetters_object (owner : TypeTerm) (type : TypeName)
    (h : ∀ e ∈ values, e.1.binding = .setter → e.1.accessor = .field e.1.name)
    (fields : Members Value) :
    applySetters owner (.object type fields) values =
      .ok (.object type (Fields.setAll
        ((values.filter fun e => e.1.binding = .setter).map fun e => (e.1.name, e.2)) fields)) := by
  induction values generalizing fields with
  | nil => rfl
  | cons e es ih =>
    obtain ⟨p, v⟩ := e
    have ih := ih fun e he => h e (List.mem_cons_of_mem _ he)
    rw [applySetters]
    split
    · rename_i hb
      rw [h (p, v) List.mem_cons_self hb]
      simp only [Accessor.field, Accessor.setField, ih, List.filter_cons, hb]
      rfl
    · rename_i hb
      have hb : p.binding ≠ .setter := fun he => hb he
      simp [ih, hb]

end Codec

namespace RecordLayout

variable {type : TypeName} {layout : RecordLayout} {values : List (Property × Value)}
  {value : String → Value} {names : List String}

theorem Slotted.argument (h : layout.Slotted names)
    (hd : (layout.properties.map Property.name).Nodup)
    (hv : ∀ e ∈ values, e.1 ∈ layout.properties ∧ e.2 = value e.1.name)
    (hall : ∀ name, value name ≠ .null → ∃ e ∈ values, e.1.name = name) {i : Nat} {name : String}
    (hi : names[i]? = some name) :
    (Codec.arguments names.length values)[i]? = some (value name) := by
  have hlt : i < names.length := (List.getElem?_eq_some_iff.1 hi).1
  have hname : ∀ e ∈ values, e.1.binding = .slot i → e.2 = value name := by
    intro e he hb
    have hn := (h.name e.1 (hv e he).1 i hb).symm.trans hi
    rw [(hv e he).2, Option.some.inj hn]
  rw [Codec.getElem?_arguments hlt hname]
  split
  · rfl
  · rename_i hnone
    by_contra hne
    obtain ⟨e, he, heq⟩ := hall name fun hnull => hne (by rw [hnull])
    obtain ⟨p, hp, hb, hn⟩ := h.slot i name hi
    have hsame : e.1 = p := List.inj_on_of_nodup_map hd (hv e he).1 hp (heq.trans hn.symm)
    exact hnone ⟨e, he, hsame ▸ hb⟩

/-- Construction and setters give the instance that has the decoded values. -/
theorem Assembled.build (h : layout.Assembled type)
    (hd : (layout.properties.map Property.name).Nodup)
    (values : List (Property × Value)) (value : String → Value)
    (hv : ∀ e ∈ values, e.1 ∈ layout.properties ∧ e.1.deserializable = true ∧
      e.2 = value e.1.name)
    (hall : ∀ name, value name ≠ .null → ∃ e ∈ values, e.1.name = name) (owner : TypeTerm) :
    ∃ v fields, layout.constructor.construct
        (Codec.arguments layout.constructor.arity values) = .ok v ∧
      Codec.applySetters owner v values = .ok (.object type fields) ∧ Fields.Proper fields ∧
      ∀ name, Fields.get name fields = value name := by
  obtain ⟨names, hc, hs⟩ := h.constructor
  have hargs : ∀ e ∈ names.zip (Codec.arguments names.length values), e.2 = value e.1 := by
    rintro ⟨name, v⟩ he
    obtain ⟨i, hi⟩ := List.mem_iff_getElem?.1 he
    obtain ⟨hname, hvalue⟩ := List.getElem?_zip_eq_some.1 hi
    rw [hs.argument hd (fun e he => ⟨(hv e he).1, (hv e he).2.2⟩) hall hname] at hvalue
    exact (Option.some.inj hvalue).symm
  have hnames : Members.names (names.zip (Codec.arguments names.length values)) = names :=
    List.map_fst_zip (Nat.le_of_eq (Codec.length_arguments _ _).symm)
  have hset : ∀ e ∈ (values.filter fun e => e.1.binding = .setter).map fun e => (e.1.name, e.2),
      e.2 = value e.1 := by
    intro e he
    obtain ⟨e', he', rfl⟩ := List.mem_map.1 he
    exact (hv e' (List.mem_filter.1 he').1).2.2
  refine ⟨_, _, ?_, Codec.applySetters_object owner type (fun e he hb => h.set e.1 (hv e he).1 hb)
    (Fields.ofList (names.zip (Codec.arguments names.length values))),
    (Fields.proper_ofList _).setAll _, fun name => ?_⟩
  · rw [hc, Constructor.record]
    simp [Codec.length_arguments]
  · rw [Fields.get_setAll hset, Fields.ofList, Fields.get_setAll hargs, hnames]
    split
    · rfl
    · rename_i hset
      split
      · rfl
      · rename_i hslot
        -- A value that is decoded is bound to a slot or to a setter.
        by_contra hne
        obtain ⟨e, he, rfl⟩ := hall name (Ne.symm hne)
        obtain ⟨hp, hdes, -⟩ := hv e he
        rw [h.deserializable e.1 hp] at hdes
        cases hb : e.1.binding with
        | slot i => exact hslot (List.mem_of_getElem? (hs.name e.1 hp i hb))
        | setter =>
          refine hset (List.mem_map.2 ⟨(e.1.name, e.2), List.mem_map.2 ⟨e, ?_, rfl⟩, rfl⟩)
          exact List.mem_filter.2 ⟨he, by simp [hb]⟩
        | readOnly | calculated =>
          rw [hb] at hdes
          cases hdes

theorem Assembled.exists_of_build (h : layout.Assembled type)
    (hd : (layout.properties.map Property.name).Nodup)
    (hn : (values.map fun e => e.1.name).Nodup)
    (hv : ∀ e ∈ values, e.1 ∈ layout.properties ∧ e.1.deserializable = true)
    {owner : TypeTerm} {built v : Value} (hbuilt : layout.constructor.construct
      (Codec.arguments layout.constructor.arity values) = .ok built)
    (hset : Codec.applySetters owner built values = .ok v) :
    ∃ fields, v = .object type fields ∧ Fields.Proper fields ∧
      (∀ e ∈ values, Fields.get e.1.name fields = e.2) ∧
      ∀ name, Fields.get name fields ≠ .null → ∃ e ∈ values, e.1.name = name := by
  let named : Members Value := values.map fun e => (e.1.name, e.2)
  have hnamed : (Members.names named).Nodup := by
    rwa [Members.names, List.map_map]
  have hvalue : ∀ e ∈ values, e.2 = Fields.get e.1.name named := by
    intro e he
    have hget := (Members.get?_eq_some_iff hnamed).2 (List.mem_map_of_mem he)
    rw [Fields.get, hget, Option.getD_some]
  have hall : ∀ name, Fields.get name named ≠ .null → ∃ e ∈ values, e.1.name = name := by
    intro name hne
    rw [Fields.get] at hne
    cases hget : Members.get? name named with
    | none =>
      rw [hget] at hne
      exact absurd rfl hne
    | some value =>
      obtain ⟨e, he, heq⟩ := List.mem_map.1 (Members.mem_of_get? hget)
      cases heq
      exact ⟨e, he, rfl⟩
  obtain ⟨w, fields, hw, hwset, hproper, hget⟩ := h.build hd values _
    (fun e he => ⟨(hv e he).1, (hv e he).2, hvalue e he⟩) hall owner
  obtain rfl := Except.ok.inj (hw.symm.trans hbuilt)
  refine ⟨fields, (Except.ok.inj (hwset.symm.trans hset)).symm, hproper, fun e he => ?_,
    fun name hne => hall name (hget name ▸ hne)⟩
  rw [hget, hvalue e he]

end RecordLayout

/-- The members make up the fields of an instance: a property that is read has what its member was
decoded to, and no other field is set. A member that is null counts as absent. -/
structure Codec.Populates (dec : CodecRef → Json → Decoding Value) (fs : List FieldCodec)
    (strict : Bool) (members : Members Json) (fields : Members Value) : Prop where
  proper : Fields.Proper fields
  known : strict = true → ∀ name ∈ Members.names members, Codec.reads fs name = true
  mandatory : ∀ f ∈ fs, f.property.deserializable = true → f.property.mandatory = true →
    ∃ j, Members.get? f.property.name members = some j ∧ j.isNull = false
  present : ∀ f ∈ fs, f.property.deserializable = true → ∀ j,
    Members.get? f.property.name members = some j → j.isNull = false →
      dec f.codec j = .ok (Fields.get f.property.name fields)
  member : ∀ name, Fields.get name fields ≠ .null → ∃ f ∈ fs, f.property.name = name ∧
    f.property.deserializable = true ∧ ∃ j, Members.get? name members = some j ∧ j.isNull = false

namespace RecordLayout.Assembled

variable {type : TypeName} {layout : RecordLayout} {dec : CodecRef → Json → Decoding Value}
  {owner : TypeTerm} {fs : List FieldCodec} {strict : Bool} {members : Members Json}
  {fields : Members Value} (hs : layout.Assembled type)
  (hn : (layout.properties.map Property.name).Nodup)
  (hfs : fs.map FieldCodec.property = layout.properties)

include hs hn hfs

theorem exists_of_decodeRecord {v : Value}
    (h : Codec.decodeRecord dec owner layout.constructor fs strict members = .ok v) :
    ∃ fields, v = .object type fields ∧ Codec.Populates dec fs strict members fields := by
  obtain ⟨hknown, values, built, hfields, hbuilt, hset⟩ := Codec.exists_of_decodeRecord h
  have hnames : (values.map fun e => e.1.name).Nodup := by
    have hn' := hn
    rw [← hfs, List.map_map] at hn'
    exact hn'.sublist hfields.names
  have hvalues : ∀ e ∈ values, e.1 ∈ layout.properties ∧ e.1.deserializable = true := by
    intro e he
    obtain ⟨f, hf, heq, hd, -⟩ := hfields.value e he
    exact heq ▸ ⟨hfs ▸ List.mem_map_of_mem hf, hd⟩
  obtain ⟨fields, hv, hproper, hget, hall⟩ := hs.exists_of_build hn hnames hvalues hbuilt hset
  refine ⟨fields, hv, hproper, hknown, hfields.mandatory, fun f hf hd j hj hnull => ?_,
    fun name hne => ?_⟩
  · obtain ⟨w, hw, hdecoded⟩ := hfields.present f hf hd j hj hnull
    rw [hget _ hw]
    exact hdecoded
  · obtain ⟨e, he, rfl⟩ := hall name hne
    obtain ⟨f, hf, heq, hd, j, hj, hnull, -⟩ := hfields.value e he
    rw [← heq]
    exact ⟨f, hf, rfl, hd, j, hj, hnull⟩

theorem decodeRecord (h : Codec.Populates dec fs strict members fields) :
    Codec.decodeRecord dec owner layout.constructor fs strict members =
      .ok (.object type fields) := by
  have hmem : ∀ f ∈ fs, f.property ∈ layout.properties := fun f hf => hfs ▸ List.mem_map_of_mem hf
  have hknown : ((Members.names members).find? fun name =>
      strict && !Codec.reads fs name) = none := by
    rw [List.find?_eq_none]
    intro name hname hunknown
    rw [Bool.and_eq_true, Bool.not_eq_true'] at hunknown
    rw [h.known hunknown.1 name hname] at hunknown
    cases hunknown.2
  let values := (fs.filter fun f => f.property.deserializable &&
    Codec.gives members f.property.name).map fun f =>
      (f.property, Fields.get f.property.name fields)
  have hfields : Codec.decodeFields dec owner members fs = .ok values :=
    Codec.decodeFields_eq (fun name => Fields.get name fields)
      (fun f hf hd hmand => Codec.gives_iff.2 (h.mandatory f hf hd hmand)) h.present
  have hvalues : ∀ e ∈ values, e.1 ∈ layout.properties ∧ e.1.deserializable = true ∧
      e.2 = Fields.get e.1.name fields := by
    intro e he
    obtain ⟨f, hf, rfl⟩ := List.mem_map.1 he
    obtain ⟨hf, hd⟩ := List.mem_filter.1 hf
    exact ⟨hmem f hf, (Bool.and_eq_true_iff.1 hd).1, rfl⟩
  have hall : ∀ name, Fields.get name fields ≠ .null → ∃ e ∈ values, e.1.name = name := by
    intro name hne
    obtain ⟨f, hf, rfl, hd, hj⟩ := h.member name hne
    exact ⟨_, List.mem_map_of_mem (List.mem_filter.2 ⟨hf, by rw [hd, Codec.gives_iff.2 hj]; rfl⟩),
      rfl⟩
  obtain ⟨built, fields', hbuilt, hset, hproper, hget⟩ := hs.build hn values _ hvalues hall owner
  obtain rfl := hproper.ext h.proper hget
  rw [Codec.decodeRecord, hknown, hfields]
  simp only [Except.ok_bind, hbuilt]
  exact hset

theorem decodeRecord_eq_ok_iff {v : Value} :
    Codec.decodeRecord dec owner layout.constructor fs strict members = .ok v ↔
      ∃ fields, v = .object type fields ∧ Codec.Populates dec fs strict members fields := by
  refine ⟨hs.exists_of_decodeRecord hn hfs, ?_⟩
  rintro ⟨fields, rfl, h⟩
  exact hs.decodeRecord hn hfs h

end RecordLayout.Assembled

end Typewire
