import Typewire.Proofs.Json.Validity
import Typewire.Proofs.Schema.Written

/-! # What is accepted conforms

A document without nulls that a codec decodes conforms to the fragment of its term, apart from
members that are only written. Every host will do, with strict records or without.
-/

namespace Typewire

namespace Codec

variable {d : Dictionary} {nested : TypeTerm → Schema → Prop} {codec : Codec} {schema : Schema}
  {v : Value} {j : Json} {settings : Settings}

theorem isWhole_of_decodeWhole {i : Int} (h : Scalar.decodeWhole j = .ok i) :
    SchemaType.integer.admits j = true := by
  unfold Scalar.decodeWhole at h
  split at h
  · rfl
  · split at h
    · rename_i hx
      exact Option.isSome_iff_exists.2 ⟨_, hx⟩
    · cases h
  · cases h

theorem conforms_of_decodeAtomic {kind : AtomicKind} (h : Scalar.decodeAtomic kind j = .ok v) :
    d.conforms .input j (Collecting.atomic kind) = true := by
  have hwhole : ∀ i, Scalar.decodeWhole j = .ok i → ∀ format,
      d.conforms .input j (.formatted .integer format) = true := by
    intro i hi format
    have hadmits := isWhole_of_decodeWhole hi
    cases j with
    | int | real => exact hadmits
    | _ => cases hadmits
  unfold Scalar.decodeAtomic at h
  split at h
  case h_5 =>
    split at h
    · exact hwhole _ ‹_› _
    · cases h
  case h_6 =>
    obtain ⟨i, hi, -⟩ := Except.exists_of_map h
    exact hwhole i hi _
  all_goals
    cases h
    try rfl

theorem conforms_of_decodeEnum {type : TypeName} {members : List (String × String)}
    (h : Scalar.decodeEnum type members j = .ok v) :
    d.conforms .input j (.enumeration (members.map Prod.snd)) = true := by
  obtain ⟨m, hm, -, rfl⟩ := Scalar.exists_of_decodeEnum h
  exact Dictionary.conforms_enumeration.2 (List.mem_map_of_mem hm)

section Step

variable {dec : CodecRef → Json → Decoding Value} {scope : Scope}
  (hnested : ∀ ref i v t, nested ref.term t → i.Valid → i.NullFree → dec ref i = .ok v →
    d.conforms .input i t = true)

include hnested

section Object

variable {members : Members Json} (hj : (Json.obj members).Valid) (hn : (Json.obj members).NullFree)

include hj hn

theorem conforms_of_fieldsDecode {fields : List FieldCodec} {ps : List (String × Schema)}
    {values : List (Property × Value)}
    (hs : List.Forall₂ (PropertyShape nested) fields ps)
    (hnames : (fields.map fun f => f.property.name).Nodup)
    (hable : ∀ f ∈ fields, f.property.serializable = true ∨ f.property.deserializable = true)
    (hfields : FieldsDecode dec members fields values) :
    d.conforms .input (.obj members)
      (.object (Members.ofList ps) (Collecting.mandatoryNames fields)) = true := by
  refine Dictionary.conforms_object.2 ⟨fun e he p hp hheeds => ?_, fun name hname => ?_⟩
  · obtain ⟨f, hf, hname, s, hs, rfl⟩ :=
      exists_left_of_forall₂ hs (Members.mem_ofList (Members.mem_of_get? hp))
    -- A member that counts is of a property that is read, for all others are only written.
    have hdes : f.property.deserializable = true := by
      have hable := hable f hf
      cases hd : f.property.deserializable with
      | true => rfl
      | false => simp_all [Sense.heeds]
    have hget : Members.get? f.property.name members = some e.2 := by
      rw [← hname, hj.sorted.get?_eq_some_iff]
      exact he
    have hnull := (hn.members e he).isNull
    obtain ⟨w, -, hdec⟩ := hfields.present f hf hdes e.2 hget hnull
    rw [Dictionary.conforms_flags]
    exact hnested f.codec e.2 w s hs (hj.members e he) (hn.members e he) hdec
  · obtain ⟨f, hf, rfl⟩ := List.mem_map.1 hname
    obtain ⟨hf, hmandatory⟩ := List.mem_filter.1 hf
    cases hdes : f.property.deserializable with
    | true =>
      obtain ⟨i, hi, -⟩ := hfields.mandatory f hf hdes hmandatory
      exact .inl (List.mem_map_of_mem (f := Prod.fst) (Members.mem_of_get? hi))
    | false =>
      right
      have hser : f.property.serializable = true := by simpa [hdes] using hable f hf
      obtain ⟨p, hp, hshape⟩ := exists_propertyShape hs hnames hf
      obtain ⟨s, -, rfl⟩ := hshape.schema
      exact ⟨_, hp, by simp [Sense.demands, hser, hdes]⟩

theorem conforms_of_decodeUnion {branches : List BranchCodec} {ps : List (String × Schema)}
    (hs : List.Forall₂ (VariantShape nested) branches ps)
    (h : decodeUnion dec branches members = .ok v) :
    d.conforms .input (.obj members) (.object (Members.ofList ps) []) = true := by
  obtain ⟨b, i, hpresent, hget, hdec⟩ := exists_of_decodeUnion h
  refine Dictionary.conforms_object.2 ⟨fun e he p hp _ => ?_, by simp⟩
  obtain ⟨b', hb', hname, hshape⟩ :=
    exists_left_of_forall₂ hs (Members.mem_ofList (Members.mem_of_get? hp))
  -- Any member that is a variant's is that of the one variant.
  have hmem : b' ∈ presentBranches branches members :=
    List.mem_filter.2 ⟨hb', Members.has_iff.2 (hname ▸ List.mem_map_of_mem he)⟩
  rw [hpresent, List.mem_singleton] at hmem
  subst hmem
  have hi : e.2 = i := by
    rw [← hname, hj.sorted.get?_eq_some_iff.2 he] at hget
    exact Option.some.inj hget
  exact hnested b'.codec e.2 v p hshape (hj.members e he) (hn.members e he) (hi ▸ hdec)

end Object

theorem conforms_of_decodeWith (hc : codec.Checked settings) (hs : codec.Shape nested schema)
    (hj : j.Valid) (hn : j.NullFree) (h : codec.decodeWith dec scope j = .ok v) :
    d.conforms .input j schema = true := by
  cases hs with
  | atomic kind => exact conforms_of_decodeAtomic (Decoding.eq_of_ofExcept h)
  | record hps =>
    cases j with
    | obj members =>
      obtain ⟨-, values, -, hfields, -⟩ := exists_of_decodeRecord h
      exact conforms_of_fieldsDecode hnested hj hn hps hc.1 hc.2 hfields
    | _ => cases h
  | sequence hitems =>
    cases j with
    | arr items =>
      obtain ⟨vs, hvs, -⟩ := Except.exists_of_map h
      refine Dictionary.conforms_array.2 fun i hi => ?_
      obtain ⟨w, -, hpart⟩ := exists_right_of_forall₂ (decodeItems_eq_ok_iff.1 hvs) hi
      have hfree := hn.items i hi
      exact hnested _ i w _ hitems (hj.items i hi) hfree (hpart.decoded hfree.isNull)
    | _ => cases h
  | map hvalues =>
    cases j with
    | obj members =>
      rw [decodeWith] at h
      split at h
      · obtain ⟨entries, hentries, -⟩ := Except.exists_of_map h
        refine Dictionary.conforms_map.2 fun e he => ?_
        obtain ⟨entry, -, -, hpart⟩ :=
          exists_right_of_forall₂ (decodeEntries_eq_ok_iff.1 hentries) he
        have hfree := hn.members e he
        exact hnested _ e.2 entry.2 _ hvalues (hj.members e he) hfree (hpart.decoded hfree.isNull)
      · cases h
    | _ => cases h
  | enumeration type members => exact conforms_of_decodeEnum (Decoding.eq_of_ofExcept h)
  | union hps =>
    cases j with
    | obj members => exact conforms_of_decodeUnion hnested hj hn hps h
    | _ => cases h
  | formatted format accepts =>
    replace h := Decoding.eq_of_ofExcept h
    unfold Scalar.decodeFormatted at h
    split at h
    · exact Dictionary.conforms_formatted
    · cases h

end Step

end Codec

namespace Reference

theorem conforms_of_decodeWithin {r : Reference} {d : Dictionary} {term : TypeTerm}
    {schema : Schema} {n : Nat} {v : Value} {j : Json} (h : r.Settled d) (hr : r.Formatted)
    {calls : Nat} (ho : r.Outlines d n term schema) (hj : j.Valid) (hn : j.NullFree)
    (hd : r.decodeWithin calls term j = .ok v) : d.conforms .input j schema = true := by
  induction calls generalizing term schema n v j with
  | zero => cases hd
  | succ calls ih =>
    obtain ⟨hterm, codec, m, t, hc, hs, hconforms⟩ := h.shape ho
    rw [decodeWithin, hterm, hc] at hd
    rw [hconforms]
    exact Codec.conforms_of_decodeWith (fun ref i w t ht hi hfree hw => ih ht hi hfree hw)
      (hr.checked hc) hs hj hn hd

end Reference

namespace Registry

variable {host : Host} {s : Settings} {customs : TypeTerm → Option Codec} {reg : Registry}
  {term : TypeTerm} {displayName : TypeName → String} {refPrefix : String} {fragment : Schema}
  {d : Dictionary}

/-- Take a registry without factories, in which all registered codecs are formats. If a pass over a
term with a new dictionary succeeds, then the term has a codec, the dictionary is complete, and
every document without nulls that the codec decodes conforms to the fragment. -/
theorem decode_conforms (h : Plain host s customs reg)
    (hformatted : ∀ key codec, customs key = some codec →
      ∃ format accepts, codec = .formatted format accepts)
    (hrun : (reg.ask (Dictionary.schemaFor displayName { refPrefix } term)).1 =
      .ok (.ok fragment, d)) :
    ∃ ref, (reg.lookup term).1 = .ok (.ok ref) ∧ (∃ entries, d.complete? = .ok entries) ∧
      ∀ j v, j.Valid → j.NullFree → (reg.lookup term).2.store.decode ref j = .ok v →
        d.conforms .input j fragment = true := by
  obtain ⟨ref, hfound, hp, hcomplete, hsettled, n, ho⟩ :=
    Reference.outlines_schemaFor (r := ⟨host, s, customs⟩) h hformatted hrun
  have hafter : Plain host s customs (reg.lookup term).2 := .lookup term h
  refine ⟨ref, hfound, hcomplete, fun j v hj hn hd => ?_⟩
  rw [Store.decode, hafter.agrees.decodeWithin hafter.sound.closed hp] at hd
  exact Reference.conforms_of_decodeWithin hsettled hformatted ho hj hn hd

theorem decode_conforms_chain :
    ∃ reg fragment d ref v, Plain .chain { denyUnknownFields := true } (fun _ => none) reg ∧
      (reg.ask (Dictionary.schemaFor TypeName.simple { refPrefix := "#/" } ⟨"Chain", []⟩)).1 =
        .ok (.ok fragment, d) ∧
      (reg.lookup ⟨"Chain", []⟩).2.store.decode ref (.obj [("next", .obj [])]) = .ok v ∧
      d.conforms .input (.obj [("next", .obj [])]) fragment = true := by
  let reg := initial .chain { denyUnknownFields := true }
  have h : Plain .chain { denyUnknownFields := true } (fun _ => none) reg := .initial
  obtain ⟨fragment, d, hrun⟩ : ∃ fragment d, (reg.ask (Dictionary.schemaFor TypeName.simple
      { refPrefix := "#/" } ⟨"Chain", []⟩)).1 = .ok (.ok fragment, d) :=
    exists_fragment (by decide +kernel)
  obtain ⟨ref, hfound, -, hconforms⟩ :=
    decode_conforms h (fun _ _ hc => by cases hc) hrun
  obtain ⟨v, hdecode⟩ : ∃ v, (reg.lookup ⟨"Chain", []⟩).2.store.decode ref
      (.obj [("next", .obj [])]) = .ok v := by
    have hok : ((reg.lookup ⟨"Chain", []⟩).1.toOption.bind Except.toOption).any fun ref =>
        ((reg.lookup ⟨"Chain", []⟩).2.store.decode ref (.obj [("next", .obj [])])).isOk := by
      decide +kernel
    rw [hfound] at hok
    exact Except.exists_of_isOk hok
  refine ⟨reg, fragment, d, ref, v, h, hrun, hdecode, hconforms _ v ?_ ?_ hdecode⟩
  · refine .obj (List.pairwise_singleton _ _) fun e he => ?_
    cases List.mem_singleton.1 he
    exact .obj List.Pairwise.nil fun e he => by cases he
  · refine .obj fun e he => ?_
    cases List.mem_singleton.1 he
    exact .obj fun e he => by cases he

end Registry

end Typewire
