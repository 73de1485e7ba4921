import Typewire.Proofs.Catalog.Standard
import Typewire.Proofs.Codec.Inversion
import Typewire.Proofs.Schema.Conformance
import Typewire.Proofs.Schema.Outline

/-! # What is written conforms

Whatever a codec writes conforms to the fragment of its term, as long as no null stands in a
container. The fragment and the encoder only share the codecs: the one stops at names, the other
does not.
-/

namespace Typewire

/-- No null stands in a list, an array or a map, at any depth. -/
inductive Value.Gapless : Value → Prop
  | leaf {v : Value} : v.depth = 0 → Gapless v
  | sequence {container : Container} {items : List Value} : (∀ v ∈ items, v ≠ .null) →
      (∀ v ∈ items, Gapless v) → Gapless (.sequence container items)
  | map {entries : List (Value × Value)} : (∀ entry ∈ entries, entry.2 ≠ .null) →
      (∀ entry ∈ entries, Gapless entry.2) → Gapless (.map entries)
  | object {type : TypeName} {fields : List (String × Value)} :
      (∀ entry ∈ fields, Gapless entry.2) → Gapless (.object type fields)

namespace Value.Gapless

theorem items {container : Container} {vs : List Value}
    (h : (Value.sequence container vs).Gapless) :
    ∀ v ∈ vs, v ≠ .null ∧ v.Gapless := by
  cases h with
  | leaf h => simp [depth] at h
  | sequence hne h => exact fun v hv => ⟨hne v hv, h v hv⟩

theorem entries {es : List (Value × Value)} (h : (Value.map es).Gapless) :
    ∀ e ∈ es, e.2 ≠ .null ∧ e.2.Gapless := by
  cases h with
  | leaf h => simp [depth] at h
  | map hne h => exact fun e he => ⟨hne e he, h e he⟩

theorem get {type : TypeName} {fields : Members Value} (h : (Value.object type fields).Gapless)
    (name : String) : (Fields.get name fields).Gapless := by
  cases h with
  | leaf h => simp [depth] at h
  | object h =>
    rw [Fields.get]
    cases hget : Members.get? name fields with
    | none => exact .leaf rfl
    | some v => exact h _ (Members.mem_of_get? hget)

end Value.Gapless

/-- The properties of a record are fields of the same names. -/
def Codec.Fielded : Codec → Prop
  | record _ _ fields _ =>
    ∀ f ∈ fields, f.property.accessor.get = Accessor.getField f.property.name
  | _ => True

namespace Codec

variable {d : Dictionary} {sense : Sense} {nested : TypeTerm → Schema → Prop} {codec : Codec}
  {schema : Schema} {v : Value} {j : Json} {settings : Settings}

section Members

variable {fields : List FieldCodec} {branches : List BranchCodec} {ps : List (String × Schema)}
  {name : String} {p : Schema}

theorem names_of_propertyShapes (h : List.Forall₂ (PropertyShape nested) fields ps) :
    Members.names ps = fields.map fun f => f.property.name := by
  induction h with
  | nil => rfl
  | cons hp _ ih =>
    rw [Members.names, List.map_cons, List.map_cons, hp.name]
    exact congrArg _ ih

theorem names_of_variantShapes (h : List.Forall₂ (VariantShape nested) branches ps) :
    Members.names ps = branches.map BranchCodec.discriminator := by
  induction h with
  | nil => rfl
  | cons hp _ ih =>
    rw [Members.names, List.map_cons, List.map_cons, hp.name]
    exact congrArg _ ih

theorem exists_propertyShape (h : List.Forall₂ (PropertyShape nested) fields ps)
    (hn : (fields.map fun f => f.property.name).Nodup) {f : FieldCodec} (hf : f ∈ fields) :
    ∃ p, Members.get? f.property.name (Members.ofList ps) = some p ∧
      PropertyShape nested f (f.property.name, p) := by
  obtain ⟨⟨name, p⟩, hp, hshape⟩ := exists_right_of_forall₂ h hf
  obtain rfl : name = f.property.name := hshape.name
  have hnames : (Members.names ps).Nodup := names_of_propertyShapes h ▸ hn
  exact ⟨p, by rwa [Members.get?_ofList hnames, Members.get?_eq_some_iff hnames], hshape⟩

theorem exists_variantShape (h : List.Forall₂ (VariantShape nested) branches ps)
    (hn : (branches.map BranchCodec.discriminator).Nodup) {b : BranchCodec} (hb : b ∈ branches) :
    ∃ p, Members.get? b.discriminator (Members.ofList ps) = some p ∧
      VariantShape nested b (b.discriminator, p) := by
  obtain ⟨⟨name, p⟩, hp, hshape⟩ := exists_right_of_forall₂ h hb
  obtain rfl : name = b.discriminator := hshape.name
  have hnames : (Members.names ps).Nodup := names_of_variantShapes h ▸ hn
  exact ⟨p, by rwa [Members.get?_ofList hnames, Members.get?_eq_some_iff hnames], hshape⟩

end Members

theorem conforms_of_encodeAtomic {kind : AtomicKind} (h : Scalar.encodeAtomic kind v = .ok j) :
    d.conforms .output j (Collecting.atomic kind) = true := by
  unfold Scalar.encodeAtomic at h
  split at h
  case h_6 =>
    split at h <;> cases h
    rfl
  all_goals
    cases h
    try rfl

theorem conforms_of_encodeEnum {type : TypeName} {members : List (String × String)}
    (h : Scalar.encodeEnum type members v = .ok j) :
    d.conforms .output j (.enumeration (members.map Prod.snd)) = true := by
  obtain ⟨m, hm, -, rfl⟩ := Scalar.exists_of_encodeEnum h
  exact Dictionary.conforms_enumeration.2 (List.mem_map_of_mem hm)

section Step

variable {enc : CodecRef → Value → Encoding Json} {scope : Scope}
  (hnested : ∀ ref v j t, nested ref.term t → v.Gapless → enc ref v = pure j →
    d.conforms .output j t = true)
  (hv : v.Gapless)

include hnested hv

theorem conforms_of_encodeFields {fields : List FieldCodec} {ps : List (String × Schema)}
    {owner : TypeTerm} {members : List (String × Json)}
    (hs : List.Forall₂ (PropertyShape nested) fields ps)
    (hn : (fields.map fun f => f.property.name).Nodup)
    (hable : ∀ f ∈ fields, f.property.serializable = true ∨ f.property.deserializable = true)
    (hget : ∀ f ∈ fields, f.property.accessor.get = Accessor.getField f.property.name)
    (h : encodeFields enc owner v fields = pure members) :
    d.conforms .output (.obj (Members.ofList members))
      (.object (Members.ofList ps) (Collecting.mandatoryNames fields)) = true := by
  have hfields := fieldsEncode_of_encodeFields h
  have hnames : (Members.names members).Nodup := hn.sublist hfields.names
  refine Dictionary.conforms_object.2 ⟨fun e he p hp _ => ?_, fun name hname => ?_⟩
  · obtain ⟨f, hf, hname, -, field, hfield, henc⟩ := hfields.member e (Members.mem_ofList he)
    obtain ⟨p', hp', hshape⟩ := exists_propertyShape hs hn hf
    rw [hname, hp] at hp'
    cases hp'
    obtain ⟨s, hs, rfl⟩ := hshape.schema
    rw [hget f hf] at hfield
    unfold Accessor.getField at hfield
    split at hfield <;> cases hfield
    rw [Dictionary.conforms_flags]
    exact hnested f.codec _ _ s hs (hv.get _) henc
  · obtain ⟨f, hf, rfl⟩ := List.mem_map.1 hname
    obtain ⟨hf, hmandatory⟩ := List.mem_filter.1 hf
    cases hser : f.property.serializable with
    | true =>
      have hmem := hfields.mandatory f hf hser hmandatory
      left
      rw [← Members.has_iff, Members.has, Members.get?_ofList hnames]
      exact Members.has_iff.2 hmem
    | false =>
      -- What is not written is read, so it is marked as write-only.
      right
      have hdes : f.property.deserializable = true := by simpa [hser] using hable f hf
      obtain ⟨p, hp, hshape⟩ := exists_propertyShape hs hn hf
      obtain ⟨s, -, rfl⟩ := hshape.schema
      exact ⟨_, hp, by simp [Sense.demands, hser, hdes]⟩

theorem conforms_of_encodeUnion {owner : TypeTerm} {branches : List BranchCodec}
    {ps : List (String × Schema)} (hs : List.Forall₂ (VariantShape nested) branches ps)
    (hn : (branches.map BranchCodec.discriminator).Nodup)
    (h : (union owner branches).encodeWith enc scope v = pure j) :
    d.conforms .output j (.object (Members.ofList ps) []) = true := by
  rw [encodeWith] at h
  split at h
  · cases h
  · rename_i b hb
    obtain ⟨i, hi, h⟩ := Encoding.exists_of_bind h
    cases h
    refine Dictionary.conforms_object.2 ⟨fun e he p hp _ => ?_, by simp⟩
    cases List.mem_singleton.1 he
    obtain ⟨p', hp', hshape⟩ := exists_variantShape hs hn (List.mem_of_find?_eq_some hb)
    cases hp.symm.trans hp'
    exact hnested b.codec v i p hshape.schema hv (Encoding.under_eq_pure_iff.1 hi)

theorem conforms_of_encodeWith (hc : codec.Checked settings) (hf : codec.Fielded)
    (hs : codec.Shape nested schema) (h : codec.encodeWith enc scope v = pure j) :
    d.conforms .output j schema = true := by
  cases hs with
  | atomic kind => exact conforms_of_encodeAtomic (Encoding.eq_of_ofExcept h)
  | record hps =>
    obtain ⟨members, hm, h⟩ := Encoding.exists_of_bind h
    cases h
    exact conforms_of_encodeFields hnested hv hps hc.1 hc.2 hf hm
  | sequence hitems =>
    cases v with
    | sequence container vs =>
      obtain ⟨js, hjs, h⟩ := Encoding.exists_of_bind h
      cases h
      refine Dictionary.conforms_array.2 fun i hi => ?_
      obtain ⟨w, hw, hpart⟩ := exists_left_of_forall₂ (encodeItems_eq_pure_iff.1 hjs) hi
      obtain ⟨hne, hg⟩ := hv.items w hw
      exact hnested _ w i _ hitems hg (hpart.encoded hne)
    | _ => cases h
  | map hvalues =>
    cases v with
    | map entries =>
      obtain ⟨members, hm, h⟩ := Encoding.exists_of_bind h
      cases h
      refine Dictionary.conforms_map.2 fun e he => ?_
      rcases exists_entry_of_encodeEntries hm e he with he | ⟨entry, hentry, hpart⟩
      · cases he
      · obtain ⟨hne, hg⟩ := hv.entries entry hentry
        exact hnested _ entry.2 e.2 _ hvalues hg (hpart.encoded hne)
    | _ => cases h
  | enumeration type members => exact conforms_of_encodeEnum (Encoding.eq_of_ofExcept h)
  | union hps => exact conforms_of_encodeUnion hnested hv hps hc.1 h
  | formatted format accepts =>
    replace h := Encoding.eq_of_ofExcept h
    unfold Scalar.encodeFormatted at h
    split at h
    · split at h <;> cases h
      exact Dictionary.conforms_formatted
    · cases h

end Step

end Codec

namespace Reference

variable {r : Reference} {d : Dictionary} {term : TypeTerm} {schema : Schema} {n : Nat}
  {v : Value} {j : Json}

theorem Settled.shape (h : r.Settled d) (ho : r.Outlines d n term schema) :
    r.settings.canonical term = term ∧ ∃ codec m t, r.codec? term = some codec ∧
      codec.Shape (r.Outlines d m) t ∧
        ∀ sense j, d.conforms sense j schema = d.conforms sense j t := by
  cases n with
  | zero => exact absurd ho id
  | succ n =>
    obtain ⟨hk, codec, hc, ⟨-, name, hname, rfl⟩ | ⟨-, hs⟩⟩ := ho
    · obtain ⟨t, ht⟩ := h.entry hname
      obtain ⟨codec', m, hc', hs⟩ := h.filled term name t hname ht
      exact ⟨hk, codec', m, t, hc', hs,
        fun _ _ => Dictionary.conforms_reference ht hs.isReference⟩
    · exact ⟨hk, codec, n, schema, hc, hs, fun _ _ => rfl⟩

theorem conforms_of_encodeWithin (h : r.Settled d) (hr : r.Formatted)
    (hf : ∀ key codec, r.codec? key = some codec → codec.Fielded) {calls : Nat}
    (ho : r.Outlines d n term schema) (hv : v.Gapless)
    (he : r.encodeWithin calls term v = pure j) : d.conforms .output j schema = true := by
  induction calls generalizing term schema n v j with
  | zero => cases he
  | succ calls ih =>
    obtain ⟨hterm, codec, m, t, hc, hs, hconforms⟩ := h.shape ho
    rw [encodeWithin, hterm, hc] at he
    rw [hconforms]
    exact Codec.conforms_of_encodeWith (fun ref w i t ht hw hi => ih ht hw hi) hv
      (hr.checked hc) (hf _ _ hc) hs he

end Reference

namespace Catalog

theorem fielded_describe? {s : Settings} {term : TypeTerm} {layout : Layout} {codec : Codec}
    (h : Reference.describe? s term layout = some codec)
    (hs : ∀ l, layout = .record l → l.Standard term.head) : codec.Fielded := by
  have hkind := Reference.kind_of_describe? h
  cases codec with
  | record owner constructor fs strict =>
    cases layout with
    | record l =>
      obtain ⟨-, fs', he, hps, -⟩ := Reference.describe?_record h
      cases he
      exact fun f hf => (hs l rfl).get f.property (hps ▸ List.mem_map_of_mem hf)
    | _ => cases hkind
  | _ => trivial

theorem Standard.fielded {c : Catalog} (hm : c.Standard) {s : Settings}
    {customs : TypeTerm → Option Codec} (hr : Reference.Formatted ⟨c.host, s, customs⟩)
    {key : TypeTerm} {codec : Codec}
    (h : Reference.codec? ⟨c.host, s, customs⟩ key = some codec) : codec.Fielded := by
  rw [Reference.codec?] at h
  split at h
  · rename_i custom hc
    obtain ⟨format, accepts, rfl⟩ := hr key custom hc
    cases h
    trivial
  · split at h
    · rename_i layout hl
      refine fielded_describe? h fun l hl' => ?_
      subst hl'
      change some (c.layout key.head) = _ at hl
      rw [layout] at hl
      split at hl
      · rename_i def' hdef
        exact (hm _ _ hdef).2 l (by simpa using hl)
      · simp at hl
    · cases h

end Catalog

namespace Registry

variable {f : CatalogFile} {c : Catalog} {s : Settings} {customs : TypeTerm → Option Codec}
  {reg : Registry} {term : TypeTerm} {displayName : TypeName → String} {refPrefix : String}
  {fragment : Schema} {d : Dictionary}

/-- Take a registry over a catalogue from a file, without factories, in which all registered codecs
are formats. If a pass over a term with a new dictionary succeeds, then the term has a codec, the
dictionary is complete, and whatever the codec writes for a value without nulls in containers
conforms to the fragment. -/
theorem encode_conforms (hf : f.registerInto .initial = (.ok (), c))
    (h : Plain c.host s customs reg)
    (hformatted : ∀ key codec, customs key = some codec →
      ∃ format accepts, codec = .formatted format accepts)
    (hrun : (reg.ask (Dictionary.schemaFor displayName { refPrefix } term)).1 =
      .ok (.ok fragment, d)) :
    ∃ ref, (reg.lookup term).1 = .ok (.ok ref) ∧ (∃ entries, d.complete? = .ok entries) ∧
      (∀ calls v j, v.Gapless → (reg.lookup term).2.store.encodeWithin calls ref v = pure j →
        d.conforms .output j fragment = true) ∧
      ∀ v j, v.Gapless → (reg.lookup term).2.store.encode ref v = pure j →
        d.conforms .output j fragment = true := by
  have hm := CatalogFile.standard_of_registerInto hf
  obtain ⟨ref, hfound, hp, hcomplete, hsettled, n, ho⟩ :=
    Reference.outlines_schemaFor (r := ⟨c.host, s, customs⟩) h hformatted hrun
  have hafter : Plain c.host s customs (reg.lookup term).2 := .lookup term h
  have hconforms : ∀ calls v j, v.Gapless →
      (reg.lookup term).2.store.encodeWithin calls ref v = pure j →
        d.conforms .output j fragment = true := by
    intro calls v j hv he
    rw [hafter.agrees.encodeWithin hafter.sound.closed hp] at he
    exact Reference.conforms_of_encodeWithin hsettled hformatted
      (fun _ _ => hm.fielded hformatted) ho hv he
  exact ⟨ref, hfound, hcomplete, hconforms, hconforms callLimit⟩

theorem exists_fragment {r : Outcome (Except SchemaError Schema × Dictionary)}
    (h : (r.toOption.bind fun p => p.1.toOption).isSome = true) :
    ∃ fragment d, r = .ok (.ok fragment, d) := by
  rcases r with why | ⟨e | fragment, d⟩
  · cases h
  · cases h
  · exact ⟨fragment, d, rfl⟩

theorem exists_of_render {x : Encoding Json} {text : String}
    (h : (x.run.bind fun r => r.toOption.map Json.render) = some text) :
    ∃ j, x = pure j ∧ j.render = text := by
  obtain ⟨e | j, hr, hj⟩ := Option.bind_eq_some_iff.1 h
  · cases hj
  · exact ⟨j, Encoding.eq_of_run hr, Option.some.inj hj⟩

theorem encode_conforms_folder :
    ∃ reg fragment d ref j, Plain Reference.folder.host {} Reference.folder.customs reg ∧
      (reg.ask (Dictionary.schemaFor TypeName.simple { refPrefix := "#/" } ⟨"Folder", []⟩)).1 =
        .ok (.ok fragment, d) ∧
      (reg.lookup ⟨"Folder", []⟩).2.store.encodeWithin 6 ref
        (.object "Folder" [("children", .map [(.string "a", .object "Folder" [])])]) = pure j ∧
      j.render = "\x7b\"children\":\x7b\"a\":\x7b\x7d\x7d\x7d" ∧
      d.conforms .output j fragment = true := by
  let reg := ((initial Reference.folder.host {}).override ⟨"Class", []⟩
    (.formatted "file name" fun _ => true)).2
  have hplain : Plain Reference.folder.host {} _ reg :=
    .registered .initial (by simp [Codec.refs]) rfl
  have hformatted : ∀ key codec, Reference.folder.customs key = some codec →
      ∃ format accepts, codec = .formatted format accepts := by
    intro key codec hc
    simp only [Reference.folder, Function.update_apply] at hc
    split at hc <;> cases hc
    exact ⟨_, _, rfl⟩
  have hf : CatalogFile.folder.registerInto .initial = (.ok (), Catalog.ofFiles [.folder]) :=
    Prod.ext (by rfl) rfl
  obtain ⟨fragment, d, hrun⟩ : ∃ fragment d, (reg.ask (Dictionary.schemaFor TypeName.simple
      { refPrefix := "#/" } ⟨"Folder", []⟩)).1 = .ok (.ok fragment, d) :=
    exists_fragment (by decide +kernel)
  obtain ⟨ref, hfound, -, hconforms, -⟩ := encode_conforms hf hplain hformatted hrun
  obtain ⟨j, hencode, hj⟩ : ∃ j, (reg.lookup ⟨"Folder", []⟩).2.store.encodeWithin 6 ref
      (.object "Folder" [("children", .map [(.string "a", .object "Folder" [])])]) = pure j ∧
        j.render = "\x7b\"children\":\x7b\"a\":\x7b\x7d\x7d\x7d" := by
    have hok : ((reg.lookup ⟨"Folder", []⟩).1.toOption.bind Except.toOption).bind (fun ref =>
        ((reg.lookup ⟨"Folder", []⟩).2.store.encodeWithin 6 ref (.object "Folder"
          [("children", .map [(.string "a", .object "Folder" [])])])).run.bind fun r =>
            r.toOption.map Json.render) =
              some "\x7b\"children\":\x7b\"a\":\x7b\x7d\x7d\x7d" := by
      decide +kernel
    rw [hfound] at hok
    obtain ⟨_, href, hok⟩ := Option.bind_eq_some_iff.1 hok
    cases href
    exact exists_of_render hok
  refine ⟨reg, fragment, d, ref, j, hplain, hrun, hencode, hj, hconforms 6 _ j ?_ hencode⟩
  refine .object fun entry he => ?_
  cases List.mem_singleton.1 he
  refine .map (fun e he => ?_) fun e he => ?_ <;> cases List.mem_singleton.1 he
  · exact Value.noConfusion
  · exact .object fun e he => by cases he

end Registry

end Typewire
