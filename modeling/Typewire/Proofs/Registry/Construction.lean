import Mathlib.Data.List.Pairwise
import Mathlib.Data.List.Perm.Basic
import Typewire.Proofs.Codec.HostCalls
import Typewire.Proofs.Registry.Steps

/-! # Instances are built as their constructors expect

The check on the layout of a record asks that its slots be those of the constructor, once each. A
codec that is derived from a layout that passes the check calls the constructor with an argument for
each of its slots.
-/

namespace Typewire

namespace RecordLayout

variable {layout : RecordLayout} {fields : List FieldCodec}

/-- The check accepts layouts whose slots are the places of the arguments in some order. -/
theorem check_iff_perm : layout.check = .ok () ↔
    (layout.properties.map Property.name).Nodup ∧
    (∀ p ∈ layout.properties, p.binding = .readOnly ∨ p.binding = .calculated →
      p.deserializable = false) ∧
    (∀ p ∈ layout.properties, p.serializable = true ∨ p.deserializable = true) ∧
    (layout.slots.map Prod.fst).Perm (List.range layout.constructor.arity) := by
  have hwritable : ∀ p : Property, (p.deserializable = true → p.binding.isWritable = true) ↔
      (p.binding = .readOnly ∨ p.binding = .calculated → p.deserializable = false) := by
    intro p
    cases p.binding <;> simp [Binding.isWritable]
  rw [check_iff]
  constructor
  · intro h
    refine ⟨h.names, fun p hp => (hwritable p).1 (h.able p hp).1, fun p hp => (h.able p hp).2, ?_⟩
    rw [List.perm_ext_iff_of_nodup h.slots List.nodup_range]
    simpa using h.arity
  · rintro ⟨hnames, hread, hused, hperm⟩
    refine ⟨hnames, fun p hp => ⟨(hwritable p).2 (hread p hp), hused p hp⟩,
      hperm.nodup_iff.2 List.nodup_range, fun index => ?_⟩
    rw [hperm.mem_iff, List.mem_range]

theorem slotsBound_of_check (h : layout.check = .ok ())
    (hf : fields.map FieldCodec.property = layout.properties) :
    Codec.SlotsBound layout.constructor.arity fields := by
  have hvalid := check_iff.1 h
  have hslots : layout.slots.map Prod.fst = fields.filterMap fun f => f.property.binding.slot? := by
    rw [map_fst_slots, ← hf, List.filterMap_map]
    rfl
  have hslot : ∀ (f : FieldCodec) (index : Nat), f.property.binding = .slot index →
      f.property.binding.slot? = some index := by
    intro f index hb
    rw [hb]
    rfl
  refine ⟨fun f hm index hb => ?_, fun f hm g hm' index hb hb' => ?_⟩
  · rw [← hvalid.arity, hslots]
    exact List.mem_filterMap.2 ⟨f, hm, hslot f index hb⟩
  · have hnodup := hvalid.slots
    rw [hslots, List.Nodup, List.pairwise_filterMap] at hnodup
    have hapart : fields.Pairwise fun f g => ∀ i, f.property.binding = .slot i →
        g.property.binding ≠ .slot i :=
      hnodup.imp fun {f g} hfg i hi hi' => hfg i (hslot f i hi) i (hslot g i hi') rfl
    have : Std.Symm fun f g : FieldCodec => ∀ i, f.property.binding = .slot i →
        g.property.binding ≠ .slot i := ⟨fun f g hfg i hi hi' => hfg i hi' hi⟩
    by_contra hne
    exact hapart.forall hm' hm hne index hb' hb

end RecordLayout

namespace Deriving

variable {resolve : Lookup} {reg reg' : Registry} {settings : Settings} {term : TypeTerm}
  {codec : Codec} {layout : RecordLayout}

def Answers (resolve : Lookup) (term : TypeTerm) (ref : CodecRef) : Prop :=
  ∃ before after, resolve term before = (.ok (.ok ref), after)

theorem exists_found_of_gather {steps : List (Except RegistryError TypeTerm)}
    {next : List (TypeTerm × CodecRef) → Ask (Except RegistryError Codec)}
    (h : (gather steps next).run resolve reg = (.ok (.ok codec), reg')) :
    ∃ found mid, List.Forall₂ (fun s entry => s = .ok entry.1 ∧ Answers resolve entry.1 entry.2)
        steps found ∧ (next found).run resolve mid = (.ok (.ok codec), reg') := by
  induction steps generalizing next reg with
  | nil => exact ⟨[], reg, .nil, h⟩
  | cons s steps ih =>
    cases s with
    | error e => simp [gather, Query.run] at h
    | ok part =>
      rw [gather, Query.run] at h
      split at h
      · rename_i r mid hr
        cases r with
        | error e => simp [Query.run] at h
        | ok ref =>
          obtain ⟨found, mid', hfound, hrun⟩ := ih h
          exact ⟨(part, ref) :: found, mid', .cons ⟨rfl, reg, mid, hr⟩ hfound, hrun⟩
      · cases h

theorem map_fieldCodecs {ps : List Property} {found : List (TypeTerm × CodecRef)}
    (h : found.length = ps.length) : (fieldCodecs ps found).map FieldCodec.property = ps := by
  rw [fieldCodecs, List.map_zipWith]
  apply List.ext_getElem
  · simp [h]
  · intro i hi hi'
    simp

theorem fieldCodecs_answers {ps : List Property} {found : List (TypeTerm × CodecRef)}
    (h : List.Forall₂ (fun s entry => s = .ok entry.1 ∧ Answers resolve entry.1 entry.2)
      (ps.map fun p => step term p.type) found) :
    ∀ f ∈ fieldCodecs ps found, ∃ part, f.property.type.instantiate term.args = .ok part ∧
      Answers resolve part f.codec := by
  induction ps generalizing found with
  | nil => exact fun f hf => absurd hf List.not_mem_nil
  | cons p ps ih =>
    cases h with
    | cons hentry hrest =>
      intro f hf
      rcases List.mem_cons.1 hf with rfl | hf
      · exact ⟨_, of_step_ok hentry.1, hentry.2⟩
      · exact ih hrest f hf

theorem exists_answers_of_run
    (h : (ofLayout settings term (.record layout)).run.run resolve reg = (.ok (.ok codec), reg')) :
    layout.check = .ok () ∧ ∃ fields, fields.map FieldCodec.property = layout.properties ∧
      codec = .record term layout.constructor fields settings.denyUnknownFields ∧
      ∀ f ∈ fields, ∃ part, f.property.type.instantiate term.args = .ok part ∧
        Answers resolve part f.codec := by
  rw [run_ofLayout, steps] at h
  cases hcheck : layout.check with
  | error fault =>
    simp [hcheck, guarded, gather, Query.run] at h
  | ok =>
    rw [hcheck, guarded] at h
    obtain ⟨found, mid, hfound, hrun⟩ := exists_found_of_gather h
    have hlength := hfound.length_eq.symm
    rw [List.length_map] at hlength
    cases hrun
    exact ⟨rfl, fieldCodecs layout.properties found, map_fieldCodecs hlength, rfl,
      fieldCodecs_answers hfound⟩

theorem exists_fields_of_run
    (h : (ofLayout settings term (.record layout)).run.run resolve reg = (.ok (.ok codec), reg')) :
    layout.check = .ok () ∧ ∃ fields, fields.map FieldCodec.property = layout.properties ∧
      codec = .record term layout.constructor fields settings.denyUnknownFields := by
  obtain ⟨hcheck, fields, hf, hcodec, -⟩ := exists_answers_of_run h
  exact ⟨hcheck, fields, hf, hcodec⟩

end Deriving

namespace RecordLayout

/-- The check accepts just the layouts whose slots are the places of the arguments. Whatever an
object holds, a codec derived from such a layout writes no argument elsewhere. If no field fails it
calls the constructor once, with what the properties received, and then the setters of those
properties that are read and received something. If one fails it calls nothing. -/
theorem construction_exact (layout : RecordLayout) :
    (layout.check = .ok () ↔
      (layout.properties.map Property.name).Nodup ∧
      (∀ p ∈ layout.properties, p.binding = .readOnly ∨ p.binding = .calculated →
        p.deserializable = false) ∧
      (∀ p ∈ layout.properties, p.serializable = true ∨ p.deserializable = true) ∧
      (layout.slots.map Prod.fst).Perm (List.range layout.constructor.arity)) ∧
    ∀ (resolve : Lookup) (reg reg' : Registry) (settings : Settings) (term : TypeTerm)
      (codec : Codec),
      (Deriving.ofLayout settings term (.record layout)).run.run resolve reg =
        (.ok (.ok codec), reg') →
      ∃ fields, fields.map FieldCodec.property = layout.properties ∧
        codec = .record term layout.constructor fields settings.denyUnknownFields ∧
        ∀ nested scope members, ∃ calls,
          Codec.decodeCalling nested term layout.constructor fields settings.denyUnknownFields
            members = some (calls, codec.decodeWith nested scope (.obj members)) ∧
          (Codec.FieldsRead nested fields settings.denyUnknownFields members →
            ∃ args sets, Codec.Built nested layout.constructor fields members calls args sets) ∧
          (¬ Codec.FieldsRead nested fields settings.denyUnknownFields members →
            calls = []) := by
  refine ⟨check_iff_perm, fun resolve reg reg' settings term codec h => ?_⟩
  obtain ⟨hcheck, fields, hf, rfl⟩ := Deriving.exists_fields_of_run h
  refine ⟨fields, hf, rfl, fun nested scope members => ?_⟩
  exact Codec.exists_decodeCalling (slotsBound_of_check hcheck hf)

def cardSetter (name : String) (accessor : Accessor) (deserializable : Bool) : Property :=
  { name, type := .apply "string" [], binding := .setter, accessor, deserializable }

def card (setters : List Property) : RecordLayout where
  constructor := .record "Card" ["number", "title"]
  properties := { name := "title", type := .apply "string" [], binding := .slot 1,
                  accessor := .field "title" } ::
    { name := "number", type := .apply "string" [], binding := .slot 0,
      accessor := .field "number" } :: setters

def cardPart : CodecRef → Json → Decoding Value :=
  fun _ j => .ofExcept (Scalar.decodeAtomic .string j)

def cardFields (setters : List Property) : List FieldCodec :=
  (card setters).properties.map fun p => ⟨p, ⟨⟨"string", []⟩, 0⟩⟩

theorem fieldsRead_cardFields {setters : List Property} {members : Members Json}
    (hs : ∀ p ∈ setters, p.mandatory = false) (hm : ∀ e ∈ members, ∃ s, e.2 = .str s) :
    Codec.FieldsRead cardPart (cardFields setters) false members := by
  refine ⟨fun h => (nomatch h), fun f hf _ hmand => ?_, fun f _ _ j hj _ => ?_⟩
  · obtain ⟨p, hp, rfl⟩ := List.mem_map.1 hf
    simp only [card, List.mem_cons] at hp
    rcases hp with rfl | rfl | hp
    · cases hmand
    · cases hmand
    · rw [hs p hp] at hmand
      cases hmand
  · obtain ⟨s, rfl⟩ := hm _ (Members.mem_of_get? hj)
    exact ⟨.string s, rfl⟩

theorem construction_exact_card :
    (card [cardSetter "note" (.field "note") true]).check = .ok () ∧
    ∃ calls args sets,
      Codec.decodeCalling cardPart ⟨"Card", []⟩ (card []).constructor
        (cardFields [cardSetter "note" (.field "note") true]) false
        [("note", .str "x"), ("title", .str "t")] =
          some (calls, .ok (.object "Card" [("note", .string "x"), ("title", .string "t")])) ∧
      Codec.Built cardPart (card []).constructor
        (cardFields [cardSetter "note" (.field "note") true])
        [("note", .str "x"), ("title", .str "t")] calls args sets := by
  let setters := [cardSetter "note" (.field "note") true]
  let members : Members Json := [("note", .str "x"), ("title", .str "t")]
  let resolve : Lookup := fun term reg => (.ok (.ok ⟨term, 0⟩), reg)
  let reg : Registry := { host := { layout := fun _ => none } }
  have hexact := construction_exact (card setters)
  obtain ⟨fields, -, hcodec, hcalls⟩ := hexact.2 resolve reg reg {} ⟨"Card", []⟩
    (.record ⟨"Card", []⟩ (card setters).constructor (cardFields setters) false) rfl
  injection hcodec with _ _ hfields _
  subst hfields
  obtain ⟨calls, hrun, hbuilt, -⟩ := hcalls cardPart ⟨fun _ _ => false, fun _ => false⟩ members
  have hread : Codec.FieldsRead cardPart (cardFields setters) false members :=
    fieldsRead_cardFields (by decide) (by simp [members])
  obtain ⟨args, sets, hbuilt⟩ := hbuilt hread
  exact ⟨by decide, calls, args, sets, hrun, hbuilt⟩

/-- A setter that is not read is not called, though its member is there, and neither is one after a
setter that fails. -/
theorem setters_not_called :
    ((card [cardSetter "note" (.field "note") false]).check = .ok () ∧
      Codec.FieldsRead cardPart (cardFields [cardSetter "note" (.field "note") false]) false
        [("note", .str "x")] ∧
      Codec.decodeCalling cardPart ⟨"Card", []⟩ (card []).constructor
          (cardFields [cardSetter "note" (.field "note") false]) false [("note", .str "x")] =
        some ([.construct [.null, .null]], .ok (.object "Card" []))) ∧
    (card [cardSetter "mark" (.computed .ok) true, cardSetter "note" (.field "note") true]).check =
      .ok () ∧
    Codec.FieldsRead cardPart (cardFields [cardSetter "mark" (.computed .ok) true,
      cardSetter "note" (.field "note") true]) false [("mark", .str "y"), ("note", .str "x")] ∧
    Codec.decodeCalling cardPart ⟨"Card", []⟩ (card []).constructor
        (cardFields [cardSetter "mark" (.computed .ok) true,
          cardSetter "note" (.field "note") true]) false
        [("mark", .str "y"), ("note", .str "x")] =
      some ([.construct [.null, .null],
          .set (cardSetter "mark" (.computed .ok) true) (.object "Card" []) (.string "y")],
        .fail (.construction ⟨⟨"Card", []⟩, some "mark", "property has no setter"⟩)) := by
  refine ⟨⟨by decide, fieldsRead_cardFields ?_ (by simp), rfl⟩, by decide,
    fieldsRead_cardFields ?_ (by simp), rfl⟩
  · simp [cardSetter]
  · simp [cardSetter]

end RecordLayout

end Typewire
