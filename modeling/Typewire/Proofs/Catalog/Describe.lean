import Typewire.Proofs.Catalog.Typing
import Typewire.Proofs.Codec.Inversion

/-! # Codecs over a catalogue

What the reference takes over from the layout of a term into its codec.
-/

namespace Typewire

def Layout.kind : Layout → CodecKind
  | atomic _ => .atomic
  | record _ => .object
  | sequence .. => .collection
  | map .. => .map
  | enumeration _ => .enum
  | union _ => .polymorphic
  | foreign => .custom

namespace Reference

variable {s : Settings} {term part : TypeTerm} {layout : Layout} {codec : Codec}

theorem part?_eq_some {scheme : TypeScheme} :
    s.part? term scheme = some part ↔
      ∃ target, scheme.instantiate term.args = .ok target ∧ part = s.canonical target := by
  rw [Settings.part?]
  cases scheme.instantiate term.args <;> simp [Except.toOption, eq_comm]

theorem canonical_of_part? {scheme : TypeScheme} (h : s.part? term scheme = some part) :
    s.canonical part = part := by
  obtain ⟨target, -, rfl⟩ := part?_eq_some.1 h
  exact s.canonical_canonical target

theorem fields?_eq_some {ps : List Property} {fs : List FieldCodec}
    (h : fields? s term ps = some fs) : fs.map FieldCodec.property = ps ∧
      ∀ f ∈ fs, s.part? term f.property.type = some f.codec.term := by
  induction ps generalizing fs with
  | nil =>
    cases h
    exact ⟨rfl, fun f hf => by cases hf⟩
  | cons p ps ih =>
    obtain ⟨part, hpart, h⟩ := Option.bind_eq_some_iff.1 h
    obtain ⟨rest, hrest, h⟩ := Option.bind_eq_some_iff.1 h
    cases h
    obtain ⟨hps, hfs⟩ := ih hrest
    refine ⟨by rw [List.map_cons, hps], fun f hf => ?_⟩
    rcases List.mem_cons.1 hf with rfl | hf
    · exact hpart
    · exact hfs f hf

structure BranchOf (s : Settings) (term : TypeTerm) (v : Variant) (b : BranchCodec) : Prop where
  discriminator : b.discriminator = v.discriminator
  part : s.part? term v.target = some b.codec.term
  head : b.target.head = b.codec.term.head

theorem branches?_eq_some {vs : List Variant} {bs : List BranchCodec}
    (h : branches? s term vs = some bs) : List.Forall₂ (BranchOf s term) vs bs := by
  induction vs generalizing bs with
  | nil =>
    cases h
    exact .nil
  | cons v vs ih =>
    obtain ⟨target, htarget, h⟩ := Option.bind_eq_some_iff.1 h
    obtain ⟨rest, hrest, h⟩ := Option.bind_eq_some_iff.1 h
    cases h
    refine .cons ⟨rfl, ?_, (s.head_canonical target).symm⟩ (ih hrest)
    rw [Settings.part?, htarget]
    rfl

theorem map_discriminator {vs : List Variant} {bs : List BranchCodec}
    (h : List.Forall₂ (BranchOf s term) vs bs) :
    bs.map BranchCodec.discriminator = vs.map Variant.discriminator := by
  induction h with
  | nil => rfl
  | cons hvb _ ih => rw [List.map_cons, List.map_cons, ih, hvb.discriminator]

theorem describe?_record {layout : RecordLayout}
    (h : describe? s term (.record layout) = some codec) :
    (layout.properties.map Property.name).Nodup ∧
      ∃ fs, codec = .record term layout.constructor fs s.denyUnknownFields ∧
        fs.map FieldCodec.property = layout.properties ∧
        ∀ f ∈ fs, s.part? term f.property.type = some f.codec.term := by
  obtain ⟨⟨⟩, hcheck, h⟩ := Option.bind_eq_some_iff.1 h
  obtain ⟨fs, hfs, h⟩ := Option.bind_eq_some_iff.1 h
  cases h
  have hvalid := RecordLayout.check_iff.1 (Except.eq_ok_of_toOption hcheck)
  exact ⟨hvalid.names, fs, rfl, fields?_eq_some hfs⟩

theorem describe?_enumeration {layout : EnumLayout}
    (h : describe? s term (.enumeration layout) = some codec) :
    (layout.members.map EnumMember.ident).Nodup ∧ (layout.members.map EnumMember.label).Nodup ∧
      codec = .enumeration term.head (layout.members.map fun m => (m.ident, m.label)) := by
  obtain ⟨⟨⟩, hcheck, h⟩ := Option.bind_eq_some_iff.1 h
  cases h
  have hvalid := EnumLayout.check_iff.1 (Except.eq_ok_of_toOption hcheck)
  exact ⟨hvalid.idents, hvalid.labels, rfl⟩

theorem describe?_sequence {container : Container} {element : TypeScheme}
    (h : describe? s term (.sequence container element) = some codec) :
    ∃ part, s.part? term element = some part ∧ codec = .sequence container ⟨part, 0⟩ := by
  obtain ⟨part, hpart, h⟩ := Option.bind_eq_some_iff.1 h
  cases h
  exact ⟨part, hpart, rfl⟩

theorem describe?_map {key value : TypeScheme}
    (h : describe? s term (.map key value) = some codec) :
    ∃ keyPart valuePart, s.part? term key = some keyPart ∧ s.part? term value = some valuePart ∧
      codec = .map term ⟨keyPart, 0⟩ ⟨valuePart, 0⟩ := by
  obtain ⟨keyPart, hkey, h⟩ := Option.bind_eq_some_iff.1 h
  obtain ⟨valuePart, hvalue, h⟩ := Option.bind_eq_some_iff.1 h
  cases h
  exact ⟨keyPart, valuePart, hkey, hvalue, rfl⟩

theorem describe?_union {layout : UnionLayout}
    (h : describe? s term (.union layout) = some codec) :
    layout.discriminators.Nodup ∧
      ∃ bs, codec = .union term bs ∧ List.Forall₂ (BranchOf s term) layout.variants bs := by
  rw [describe?] at h
  split at h
  · cases h
  · rename_i hvalid
    obtain ⟨bs, hbs, h⟩ := Option.bind_eq_some_iff.1 h
    cases h
    exact ⟨not_not.1 fun hd => hvalid (.inr hd), bs, rfl, branches?_eq_some hbs⟩

theorem kind_of_describe? (h : describe? s term layout = some codec) :
    codec.kind = layout.kind := by
  cases layout with
  | atomic kind =>
    cases h
    rfl
  | record layout =>
    obtain ⟨-, fs, rfl, -⟩ := describe?_record h
    rfl
  | sequence container element =>
    obtain ⟨element, -, rfl⟩ := describe?_sequence h
    rfl
  | map key value =>
    obtain ⟨key, value, -, -, rfl⟩ := describe?_map h
    rfl
  | enumeration layout =>
    obtain ⟨-, -, rfl⟩ := describe?_enumeration h
    rfl
  | union layout =>
    obtain ⟨-, bs, rfl, -⟩ := describe?_union h
    rfl
  | foreign => cases h

theorem kind_ne_custom_of_describe? (h : describe? s term layout = some codec) :
    codec.kind ≠ .custom := by
  intro hcustom
  rw [kind_of_describe? h] at hcustom
  cases layout with
  | foreign => cases h
  | _ => cases hcustom

theorem layout_of_isStringBacked (h : describe? s term layout = some codec)
    (hbacked : codec.isStringBacked = true) :
    layout = .atomic .string ∨ ∃ enum, layout = .enumeration enum := by
  have hkind := kind_of_describe? h
  cases codec with
  | atomic kind =>
    obtain rfl : kind = .string := of_decide_eq_true hbacked
    cases layout with
    | atomic kind' =>
      cases h
      exact .inl rfl
    | _ => cases hkind
  | enumeration type members =>
    cases layout with
    | enumeration enum => exact .inr ⟨enum, rfl⟩
    | _ => cases hkind
  | formatted | custom => exact absurd rfl (kind_ne_custom_of_describe? h)
  | _ => cases hbacked

theorem exists_ref_of_part (h : describe? s term layout = some codec) {scheme : TypeScheme}
    (hs : scheme ∈ layout.parts) (hp : s.part? term scheme = some part) :
    ∃ ref ∈ codec.refs, ref.term = part := by
  cases layout with
  | atomic kind => cases hs
  | record layout =>
    obtain ⟨-, fs, rfl, hps, hparts⟩ := describe?_record h
    obtain ⟨p, hp', rfl⟩ := List.mem_map.1 hs
    obtain ⟨f, hf, rfl⟩ := List.mem_map.1 (hps.symm ▸ hp')
    exact ⟨f.codec, List.mem_map_of_mem hf, Option.some.inj ((hparts f hf).symm.trans hp)⟩
  | sequence container element =>
    obtain ⟨part', hpart, rfl⟩ := describe?_sequence h
    cases List.mem_singleton.1 hs
    exact ⟨_, List.mem_singleton_self _, Option.some.inj (hpart.symm.trans hp)⟩
  | map key value =>
    obtain ⟨k, v, hk, hv, rfl⟩ := describe?_map h
    rcases List.mem_cons.1 hs with rfl | hs
    · exact ⟨_, List.mem_cons_self, Option.some.inj (hk.symm.trans hp)⟩
    · cases List.mem_singleton.1 hs
      exact ⟨_, List.mem_cons_of_mem _ List.mem_cons_self, Option.some.inj (hv.symm.trans hp)⟩
  | enumeration layout => cases hs
  | union layout =>
    obtain ⟨-, bs, rfl, hbs⟩ := describe?_union h
    obtain ⟨v, hv, rfl⟩ := List.mem_map.1 hs
    obtain ⟨b, hb, hvb⟩ := exists_right_of_forall₂ hbs hv
    exact ⟨b.codec, List.mem_map_of_mem hb, Option.some.inj (hvb.part.symm.trans hp)⟩
  | foreign => cases hs

theorem exists_part_of_ref (h : describe? s term layout = some codec) {ref : CodecRef}
    (hr : ref ∈ codec.refs) : ∃ scheme ∈ layout.parts, s.part? term scheme = some ref.term := by
  cases layout with
  | atomic kind =>
    cases h
    cases hr
  | record layout =>
    obtain ⟨-, fs, rfl, hps, hparts⟩ := describe?_record h
    obtain ⟨f, hf, rfl⟩ := List.mem_map.1 hr
    exact ⟨f.property.type, List.mem_map_of_mem (hps ▸ List.mem_map_of_mem hf), hparts f hf⟩
  | sequence container element =>
    obtain ⟨part, hpart, rfl⟩ := describe?_sequence h
    cases List.mem_singleton.1 hr
    exact ⟨element, List.mem_singleton_self _, hpart⟩
  | map key value =>
    obtain ⟨k, v, hk, hv, rfl⟩ := describe?_map h
    rcases List.mem_cons.1 hr with rfl | hr
    · exact ⟨key, List.mem_cons_self, hk⟩
    · cases List.mem_singleton.1 hr
      exact ⟨value, List.mem_cons_of_mem _ List.mem_cons_self, hv⟩
  | enumeration layout =>
    obtain ⟨-, -, rfl⟩ := describe?_enumeration h
    cases hr
  | union layout =>
    obtain ⟨-, bs, rfl, hbs⟩ := describe?_union h
    obtain ⟨b, hb, rfl⟩ := List.mem_map.1 hr
    obtain ⟨v, hv, hvb⟩ := exists_left_of_forall₂ hbs hb
    exact ⟨v.target, List.mem_map_of_mem hv, hvb.part⟩
  | foreign => cases h

end Reference

namespace Catalog

variable {c : Catalog} {s : Settings} {term : TypeTerm} {layout : Layout} {codec : Codec}

theorem layout?_iff :
    c.layout? term = some layout ↔ c.host.layout term.head = some (.ok layout) := by
  simp only [layout?, host, Catalog.layout]
  cases c.definition? term.head <;> simp

/-- The reference over a catalogue, without codecs of its own. -/
def reference (c : Catalog) (s : Settings) : Reference := ⟨c.host, s, fun _ => none⟩

theorem codec?_reference (h : c.layout? term = some layout) :
    (c.reference s).codec? term = Reference.describe? s term layout := by
  obtain ⟨d, hd, rfl⟩ := Option.map_eq_some_iff.1 h
  simp only [Reference.codec?, reference, host, Catalog.layout, hd]

structure Resolved (c : Catalog) (s : Settings) (term : TypeTerm) : Prop where
  canonical : s.canonical term = term
  derived : ∃ codec, (c.reference s).codec? term = some codec

theorem exists_layout_of_codec? (h : (c.reference s).codec? term = some codec) :
    ∃ layout, c.layout? term = some layout ∧ Reference.describe? s term layout = some codec := by
  cases hd : c.definition? term.head with
  | none => simp [Reference.codec?, reference, host, Catalog.layout, hd] at h
  | some d =>
    have hl : c.layout? term = some d.layout := congrArg (Option.map TypeDefinition.layout) hd
    exact ⟨d.layout, hl, codec?_reference hl ▸ h⟩

namespace Resolved

variable (h : c.Resolved s term) (hl : c.layout? term = some layout)

include h hl

theorem describe? : ∃ codec, Reference.describe? s term layout = some codec := by
  obtain ⟨codec, hc⟩ := h.derived
  exact ⟨codec, codec?_reference hl ▸ hc⟩

theorem encodeWithin (hd : Reference.describe? s term layout = some codec) (calls : Nat)
    (v : Value) : (c.reference s).encodeWithin (calls + 1) term v =
      codec.encodeWith (fun ref => (c.reference s).encodeWithin calls ref.term)
        (c.reference s).scope v := by
  have hc : (c.reference s).codec? ((c.reference s).settings.canonical term) = some codec := by
    rw [← hd, ← codec?_reference hl]
    exact congrArg _ h.canonical
  rw [Reference.encodeWithin, hc]

theorem decodeWithin (hd : Reference.describe? s term layout = some codec) (calls : Nat)
    (j : Json) : (c.reference s).decodeWithin (calls + 1) term j =
      codec.decodeWith (fun ref => (c.reference s).decodeWithin calls ref.term)
        (c.reference s).scope j := by
  have hc : (c.reference s).codec? ((c.reference s).settings.canonical term) = some codec := by
    rw [← hd, ← codec?_reference hl]
    exact congrArg _ h.canonical
  rw [Reference.decodeWithin, hc]

end Resolved

theorem Resolved.nodup {layout : RecordLayout} (h : c.Resolved s term)
    (hl : c.layout? term = some (.record layout)) :
    (layout.properties.map Property.name).Nodup := by
  obtain ⟨codec, hd⟩ := h.describe? hl
  exact (Reference.describe?_record hd).1

theorem Resolved.exists_part {layout : RecordLayout} (h : c.Resolved s term)
    (hl : c.layout? term = some (.record layout)) {p : Property} (hp : p ∈ layout.properties) :
    ∃ part, s.part? term p.type = some part := by
  obtain ⟨codec, hd⟩ := h.describe? hl
  obtain ⟨-, fs, -, hfs, hparts⟩ := Reference.describe?_record hd
  obtain ⟨f, hf, rfl⟩ := List.mem_map.1 (hfs.symm ▸ hp)
  exact ⟨_, hparts f hf⟩

theorem isStringBacked_reference (h : c.Resolved s term)
    (hk : c.layout? term = some (.atomic .string) ∨
      ∃ layout, c.layout? term = some (.enumeration layout)) (slot : Nat) :
    (c.reference s).scope.isStringBacked ⟨term, slot⟩ = true := by
  change Option.any _ ((c.reference s).codec? (s.canonical term)) = true
  rw [h.canonical]
  rcases hk with hk | ⟨layout, hk⟩
  · rw [codec?_reference hk]
    rfl
  · obtain ⟨codec, hd⟩ := h.describe? hk
    obtain ⟨-, -, rfl⟩ := Reference.describe?_enumeration hd
    rw [codec?_reference hk, hd]
    rfl

theorem layout?_of_isStringBacked (hc : s.canonical term = term) {slot : Nat}
    (h : (c.reference s).scope.isStringBacked ⟨term, slot⟩ = true) :
    c.layout? term = some (.atomic .string) ∨
      ∃ layout, c.layout? term = some (.enumeration layout) := by
  change Option.any _ ((c.reference s).codec? (s.canonical term)) = true at h
  rw [hc] at h
  obtain ⟨codec, hcodec, hbacked⟩ := (Option.any_eq_true _ _).1 h
  obtain ⟨layout, hl, hd⟩ := exists_layout_of_codec? hcodec
  rcases Reference.layout_of_isStringBacked hd hbacked with rfl | ⟨enum, rfl⟩
  · exact .inl hl
  · exact .inr ⟨enum, hl⟩

/-- What a round trip asks of a term. -/
structure Codable (c : Catalog) (s : Settings) (term : TypeTerm) : Prop where
  canonical : s.canonical term = term
  derived : ∃ codec, (c.reference s).codec? term = some codec
  reversible : c.Reversible s term

theorem Codable.resolved (h : c.Codable s term) : c.Resolved s term := ⟨h.canonical, h.derived⟩

end Catalog

end Typewire
