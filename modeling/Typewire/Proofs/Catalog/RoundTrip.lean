import Typewire.Proofs.Catalog.Reading
import Typewire.Proofs.Catalog.Writing

/-! # Encoding and decoding back

For each kind of layout, a value is encoded and decoded back if its parts are. What comes back is
the value but for what only goes one way.
-/

namespace Typewire

namespace Catalog

variable {c : Catalog} {s : Settings} {term part : TypeTerm} {v : Value} {j : Json}

/-- The calls for a value without depth. A union hands its value on. -/
def hops (c : Catalog) (term : TypeTerm) : Nat :=
  match c.layout? term with
  | some (.union _) => 2
  | _ => 1

theorem hops_le (c : Catalog) (term : TypeTerm) : c.hops term ≤ 2 := by
  unfold hops
  split <;> omega

theorem hops_pos (c : Catalog) (term : TypeTerm) : 0 < c.hops term := by
  unfold hops
  split <;> omega

/-- The value becomes the document, and the document the value but for what only goes one way. -/
structure RoundTrips (c : Catalog) (s : Settings) (term : TypeTerm) (v : Value) (j : Json) :
    Prop where
  isNull : j.isNull = false
  encode : ∀ calls, 2 * v.depth + c.hops term ≤ calls →
    (c.reference s).encodeWithin calls term v = pure j
  decode : ∀ calls, j.depth < calls → (c.reference s).decodeWithin calls term j = .ok (c.trim v)

theorem roundTrips_of_writes (hc : c.Resolved s term) {layout : Layout} {codec : Codec}
    (hl : c.layout? term = some layout) (hd : Reference.describe? s term layout = some codec)
    (hj : j.isNull = false) {depth : Nat} (he : c.Writes s term depth v j)
    (hdepth : depth < 2 * v.depth + c.hops term)
    (hv : ∀ calls, j.depth ≤ calls →
      codec.decodeWith (fun ref => (c.reference s).decodeWithin calls ref.term)
        (c.reference s).scope j = .ok (c.trim v)) : c.RoundTrips s term v j := by
  exact ⟨hj, fun calls hcalls => he calls (by omega),
    fun _ => decodeWithin_of_step hc hl hd hv⟩

theorem RoundTrips.writes (h : c.RoundTrips s term v j) {depth : Nat}
    (hdepth : 2 * v.depth + 1 ≤ depth) : c.Writes s term depth v j := by
  intro calls hcalls
  have hops := c.hops_le term
  exact h.encode calls (by omega)

/-- The same for a part that may be null. -/
structure Carries (c : Catalog) (s : Settings) (term : TypeTerm) (v : Value) (j : Json) :
    Prop where
  null : v = .null → j = .null
  roundTrips : v ≠ .null → c.RoundTrips s term v j

theorem exists_carries {vs : List Value}
    (h : ∀ v ∈ vs, v ≠ .null → ∃ j, c.RoundTrips s part v j) :
    ∃ image : Value → Json, ∀ v ∈ vs, c.Carries s part v (image v) := by
  obtain ⟨image, himage⟩ := exists_image h
  exact ⟨image, fun v hv => ⟨(himage v hv).1, (himage v hv).2⟩⟩

theorem Carries.partWrites (h : c.Carries s term v j) {depth : Nat}
    (hdepth : 2 * v.depth + 1 ≤ depth) : c.PartWrites s term depth v j :=
  ⟨h.null, fun hv => (h.roundTrips hv).writes hdepth⟩

theorem Carries.partDecodes {ref : CodecRef} (h : c.Carries s ref.term v j) {calls : Nat}
    (hn : j.depth < calls) :
    Codec.PartDecodes (fun ref => (c.reference s).decodeWithin calls ref.term) ref j
      (c.trim v) := by
  by_cases hv : v = .null
  · subst hv
    rw [h.null rfl]
    exact ⟨fun _ => c.trim_null, nofun⟩
  · have ht := h.roundTrips hv
    exact ⟨fun hj => absurd (ht.isNull.symm.trans hj) Bool.false_ne_true,
      fun _ => ht.decode calls hn⟩

theorem trim_of_admits {kind : AtomicKind} (hv : kind.Admits v) : c.trim v = v := by
  cases kind <;> cases v <;> simp_all [AtomicKind.Admits, trim]

theorem roundTrips_atomic (hc : c.Resolved s term) {kind : AtomicKind}
    (hl : c.layout? term = some (.atomic kind)) (hv : kind.Admits v) :
    ∃ j, c.RoundTrips s term v j := by
  obtain ⟨j, hj⟩ := exists_encodeAtomic hv
  have hlong : kind = .long → ∀ i, v ≠ .int i := by
    rintro rfl i rfl
    exact hv
  have hdouble : kind = .double → ∃ x, v = .double x := by
    rintro rfl
    cases v <;> simp_all [AtomicKind.Admits]
  obtain ⟨hdec, hnull, hdepth⟩ := Scalar.encodeAtomic_decodeAtomic hj hlong hdouble
  have hpos := c.hops_pos term
  refine ⟨j, roundTrips_of_writes hc hl rfl hnull (writes_atomic hc hl hj) (by omega)
    fun calls _ => ?_⟩
  rw [Codec.decodeWith, hdec, trim_of_admits hv]
  rfl

theorem Names.roundTrips (h : c.Names s term v) (hv : c.trim v = v) :
    c.RoundTrips s term v (.str (c.label v)) := by
  refine ⟨rfl, fun calls hcalls => ?_, fun calls hcalls => ?_⟩
  · have hpos := c.hops_pos term
    obtain ⟨n, rfl⟩ : ∃ n, calls = n + 1 := ⟨calls - 1, by omega⟩
    exact h.encode n
  · obtain ⟨n, rfl⟩ : ∃ n, calls = n + 1 := ⟨calls - 1, by omega⟩
    rw [h.decode, hv]

theorem roundTrips_sequence (hc : c.Resolved s term) {container : Container} {element : TypeScheme}
    {items : List Value} {image : Value → Json}
    (hl : c.layout? term = some (.sequence container element))
    (hp : s.part? term element = some part) (hi : ∀ v ∈ items, c.Carries s part v (image v)) :
    c.RoundTrips s term (.sequence container items) (.arr (items.map image)) := by
  have hhops : c.hops term = 1 := by rw [hops, hl]
  have hd : Reference.describe? s term (.sequence container element) =
      some (.sequence container ⟨part, 0⟩) := by
    rw [Reference.describe?, hp]
    rfl
  have hw : c.Writes s term (2 * Value.depthItems items + 2) (.sequence container items)
      (.arr (items.map image)) :=
    writes_sequence hc hl hp fun v hv => by
      have hdepth := Value.depth_le_of_mem_items hv
      exact (hi v hv).partWrites (by omega)
  refine roundTrips_of_writes hc hl hd rfl hw (by rw [Value.depth]; omega) fun calls hcalls => ?_
  rw [Json.depth] at hcalls
  rw [Codec.decodeWith, Codec.decodeItems_eq_ok_iff.2, trim, trimItems_eq]
  · rfl
  refine List.forall₂_map_left_iff.2 (List.forall₂_map_right_iff.2 (List.forall₂_same.2 ?_))
  intro v hv
  have hdepth := Json.depth_le_of_mem_items (List.mem_map_of_mem (f := image) hv)
  exact (hi v hv).partDecodes (by omega)

def mapSteps (c : Catalog) (image : Value → Json) (entries : List (Value × Value)) :
    Members (Value × Json × Value) :=
  Members.ofList (entries.map fun e => (c.label e.1, e.1, image e.2, c.trim e.2))

section MapSteps

variable {image : Value → Json} {entries : List (Value × Value)}

theorem exists_of_mem_mapSteps {e : String × Value × Json × Value}
    (he : e ∈ c.mapSteps image entries) : ∃ entry ∈ entries,
      (c.label entry.1, entry.1, image entry.2, c.trim entry.2) = e :=
  List.mem_map.1 (Members.mem_ofList he)

theorem ofList_labels : Members.ofList (entries.map fun e => (c.label e.1, image e.2)) =
    (c.mapSteps image entries).map fun e => (e.1, e.2.2.1) := by
  rw [mapSteps, ← Members.ofList_map fun e : Value × Json × Value => e.2.1, List.map_map]
  rfl

theorem trim_map : c.trim (.map entries) =
    .map ((c.mapSteps image entries).map fun e => (e.2.1, e.2.2.2)) := by
  have hsteps : Members.ofList (c.trimEntries entries) =
      (c.mapSteps image entries).map fun e => (e.1, e.2.1, e.2.2.2) := by
    rw [mapSteps, ← Members.ofList_map fun e : Value × Json × Value => (e.1, e.2.2),
      List.map_map, trimEntries_eq]
    rfl
  rw [trim, hsteps, List.map_map]
  rfl

end MapSteps

theorem roundTrips_map (hc : c.Resolved s term) {key value : TypeScheme}
    {keyPart valuePart : TypeTerm} {entries : List (Value × Value)} {image : Value → Json}
    (hl : c.layout? term = some (.map key value)) (hk : s.part? term key = some keyPart)
    (hv : s.part? term value = some valuePart)
    (hs : (c.reference s).scope.isStringBacked ⟨keyPart, 0⟩ = true)
    (hn : (entries.map fun e => c.label e.1).Nodup)
    (hkeys : ∀ e ∈ entries, c.Names s keyPart e.1)
    (hi : ∀ e ∈ entries, c.Carries s valuePart e.2 (image e.2)) :
    c.RoundTrips s term (.map entries)
      (.obj (Members.ofList (entries.map fun e => (c.label e.1, image e.2)))) := by
  have hhops : c.hops term = 1 := by rw [hops, hl]
  have hd : Reference.describe? s term (.map key value) =
      some (.map term ⟨keyPart, 0⟩ ⟨valuePart, 0⟩) := by
    rw [Reference.describe?, hk, hv]
    rfl
  have hw : c.Writes s term (2 * Value.depthEntries entries + 2) (.map entries)
      (.obj (Members.ofList (entries.map fun e => (c.label e.1, image e.2)))) :=
    writes_map hc hl hk hv hs hn hkeys fun e he => by
      have hdepth := Value.depth_le_of_mem_entries he
      exact (hi e he).partWrites (by omega)
  refine roundTrips_of_writes hc hl hd rfl hw (by rw [Value.depth]; omega) fun calls hcalls => ?_
  rw [Json.depth] at hcalls
  obtain ⟨n, rfl⟩ : ∃ n, calls = n + 1 := ⟨calls - 1, by omega⟩
  rw [ofList_labels] at hcalls ⊢
  rw [Codec.decodeWith, hs, if_pos rfl, trim_map, Codec.decodeEntries_eq_ok_iff.2]
  · rfl
  refine List.forall₂_map_left_iff.2 (List.forall₂_map_right_iff.2 (List.forall₂_same.2 ?_))
  intro e he
  have hdepth := Json.depth_le_of_mem_members (List.mem_map_of_mem
    (f := fun e : String × Value × Json × Value => (e.1, e.2.2.1)) he)
  have hlt : e.2.2.1.depth < n + 1 := Nat.lt_of_le_of_lt hdepth (by omega)
  obtain ⟨entry, hentry, rfl⟩ := exists_of_mem_mapSteps he
  exact ⟨(hkeys entry hentry).decode n, (hi entry hentry).partDecodes hlt⟩

/-- What goes only one way does no harm to an instance: nothing mandatory is only written, and a
strict record has no member that is only read. -/
structure Survives (s : Settings) (layout : RecordLayout) (fields : Members Value) : Prop where
  mandatory : ∀ p ∈ layout.properties, p.mandatory = true → Fields.get p.name fields ≠ .null
  writeOnly : ∀ p ∈ layout.properties, p.serializable = false → p.mandatory = false
  readOnly : s.denyUnknownFields = false ∨
    ∀ p ∈ layout.properties, p.binding = .readOnly → Fields.get p.name fields = .null

structure Images (c : Catalog) (s : Settings) (layout : RecordLayout) (fs : List FieldCodec)
    (fields : Members Value) (image : String → Json) : Prop where
  nodup : (layout.properties.map Property.name).Nodup
  properties : fs.map FieldCodec.property = layout.properties
  proper : Fields.Proper fields
  survives : Survives s layout fields
  field : ∀ f ∈ fs, Fields.get f.property.name fields ≠ .null →
    c.RoundTrips s f.codec.term (Fields.get f.property.name fields) (image f.property.name)

namespace Images

variable {layout : RecordLayout} {fs : List FieldCodec} {fields : Members Value}
  {image : String → Json} (h : c.Images s layout fs fields image)

include h

theorem property {f : FieldCodec} (hf : f ∈ fs) : f.property ∈ layout.properties :=
  h.properties ▸ List.mem_map_of_mem hf

theorem eq_of_name {p q : Property} (hp : p ∈ layout.properties) (hq : q ∈ layout.properties)
    (hn : p.name = q.name) : p = q :=
  List.inj_on_of_nodup_map h.nodup hp hq hn

theorem get?_members {p : Property} (hp : p ∈ layout.properties) :
    Members.get? p.name (recordMembers layout fields image) =
      if Codec.writes fields p then some (image p.name) else none := by
  have hnames : Members.names ((layout.properties.filter (Codec.writes fields)).map fun p =>
      (p.name, image p.name)) =
        (layout.properties.filter (Codec.writes fields)).map Property.name := List.map_map
  have hsub := (List.filter_sublist (l := layout.properties)
    (p := Codec.writes fields)).map Property.name
  rw [recordMembers, Members.get?_ofList (hnames ▸ h.nodup.sublist hsub),
    Members.get?_eq_ite image, hnames]
  · by_cases hw : Codec.writes fields p = true
    · rw [if_pos hw, if_pos (List.mem_map_of_mem (List.mem_filter.2 ⟨hp, hw⟩))]
    · rw [if_neg hw, if_neg]
      intro hm
      obtain ⟨q, hq, hn⟩ := List.mem_map.1 hm
      obtain ⟨hq, hwq⟩ := List.mem_filter.1 hq
      exact hw (h.eq_of_name hq hp hn ▸ hwq)
  · intro entry he
    obtain ⟨p, -, rfl⟩ := List.mem_map.1 he
    rfl

theorem writes (hm : c.Standard) (hc : c.Resolved s term)
    (hl : c.layout? term = some (.record layout))
    (hparts : ∀ f ∈ fs, s.part? term f.property.type = some f.codec.term) :
    c.Writes s term (2 * Value.depthFields fields + 2) (.object term.head fields)
      (.obj (recordMembers layout fields image)) := by
  refine writes_record hm hc hl (fun p hp _ hman => h.survives.mandatory p hp hman) ?_
  intro p hp hw part hpart
  obtain ⟨f, hf, rfl⟩ := List.mem_map.1 (h.properties.symm ▸ hp)
  obtain rfl := Option.some.inj ((hparts f hf).symm.trans hpart)
  have hne := (Codec.writes_iff.1 hw).2
  have hdepth := Value.depth_le_of_mem_fields (h.proper.mem_iff.2 ⟨hne, rfl⟩)
  exact (h.field f hf hne).writes (by simp only at hdepth; omega)

theorem get?_of_writes {p : Property} (hp : p ∈ layout.properties)
    (hw : Codec.writes fields p = true) :
    ∃ j, Members.get? p.name (recordMembers layout fields image) = some j ∧ j.isNull = false := by
  obtain ⟨f, hf, rfl⟩ := List.mem_map.1 (h.properties.symm ▸ hp)
  refine ⟨image f.property.name, ?_, (h.field f hf (Codec.writes_iff.1 hw).2).isNull⟩
  rw [h.get?_members hp, if_pos hw]

theorem fills (hl : c.layout? term = some (.record layout)) (hs : layout.Standard term.head) :
    Fills s layout (recordMembers layout fields image)
      (c.trimFields (c.keeps term.head) fields) := by
  refine ⟨c.proper_trimFields h.proper _, fun hstrict name hname => ?_, fun p hp hdes hman => ?_,
    fun name hne => ?_⟩
  · obtain ⟨p, hp, rfl, hw⟩ := mem_names_recordMembers hname
    refine ⟨p, hp, rfl, (hs.deserializable_iff hp).2 fun hb => ?_⟩
    rcases h.survives.readOnly with hr | hr
    · exact Bool.false_ne_true (hr.symm.trans hstrict)
    · exact (Codec.writes_iff.1 hw).2 (hr p hp hb)
  · refine h.get?_of_writes hp (Codec.writes_iff.2 ⟨?_, h.survives.mandatory p hp hman⟩)
    cases hser : p.serializable with
    | true => rfl
    | false => exact (h.survives.writeOnly p hp hser).symm.trans hman
  · rw [get_trimFields] at hne
    split at hne
    · rename_i hk
      obtain ⟨p, hp, rfl, hser, hdes⟩ := (c.keeps_iff hl).1 hk
      have hw := Codec.writes_iff.2 ⟨hser, fun hnull => hne (by rw [hnull, trim_null])⟩
      exact ⟨p, hp, rfl, hdes, h.get?_of_writes hp hw⟩
    · exact absurd rfl hne

theorem decodeRecord (hl : c.layout? term = some (.record layout))
    (hs : layout.Standard term.head) {calls : Nat}
    (hcalls : Json.depthMembers (recordMembers layout fields image) < calls) :
    Codec.decodeRecord (fun ref => (c.reference s).decodeWithin calls ref.term) term
      layout.constructor fs s.denyUnknownFields (recordMembers layout fields image) =
        .ok (c.trim (.object term.head fields)) := by
  rw [trim]
  refine (h.fills hl hs).decodeRecord hs h.nodup h.properties fun f hf hdes j hj _ => ?_
  have hdepth := Json.depth_le_of_mem_members (Members.mem_of_get? hj)
  rw [h.get?_members (h.property hf), Option.ite_none_right_eq_some] at hj
  obtain ⟨hw, hj⟩ := hj
  cases hj
  obtain ⟨hser, hne⟩ := Codec.writes_iff.1 hw
  rw [get_trimFields, if_pos ((c.keeps_iff hl).2 ⟨_, h.property hf, rfl, hser, hdes⟩)]
  exact (h.field f hf hne).decode calls (Nat.lt_of_le_of_lt hdepth hcalls)

end Images

theorem roundTrips_record (hm : c.Standard) (hc : c.Resolved s term) {layout : RecordLayout}
    {fields : Members Value} (hl : c.layout? term = some (.record layout))
    (hf : Fields.Proper fields) (hv : Survives s layout fields)
    (hi : ∀ p ∈ layout.properties, Fields.get p.name fields ≠ .null → ∀ part,
      s.part? term p.type = some part → ∃ j, c.RoundTrips s part (Fields.get p.name fields) j) :
    ∃ j, c.RoundTrips s term (.object term.head fields) j := by
  have hhops : c.hops term = 1 := by rw [hops, hl]
  obtain ⟨codec, hd⟩ := hc.describe? hl
  obtain ⟨hnodup, fs, rfl, hfs, hfparts⟩ := Reference.describe?_record hd
  have hs := hm.record hl
  have hnames : (fs.map fun f => f.property.name).Nodup := by
    rwa [← hfs, List.map_map] at hnodup
  have hi : ∀ f ∈ fs, Fields.get f.property.name fields ≠ .null →
      ∃ j, c.RoundTrips s f.codec.term (Fields.get f.property.name fields) j :=
    fun f hf hne => hi _ (hfs ▸ List.mem_map_of_mem hf) hne _ (hfparts f hf)
  obtain ⟨image, himage⟩ := exists_byKey hnames hi
  have h : c.Images s layout fs fields image := ⟨hnodup, hfs, hf, hv, himage⟩
  refine ⟨.obj (recordMembers layout fields image), roundTrips_of_writes hc hl hd rfl
    (h.writes hm hc hl hfparts) (by rw [Value.depth]; omega) fun calls hcalls => ?_⟩
  rw [Json.depth] at hcalls
  rw [Codec.decodeWith, h.decodeRecord hl hs (by omega)]

theorem roundTrips_union (hc : c.Resolved s term) {layout : UnionLayout} {variant : Variant}
    (hl : c.layout? term = some (.union layout))
    (hv : c.variantFor? s term layout v = some variant)
    (hp : s.part? term variant.target = some part) (hh : c.hops part = 1)
    (hi : c.RoundTrips s part v j) :
    c.RoundTrips s term v (.obj [(variant.discriminator, j)]) := by
  have hhops : c.hops term = 2 := by rw [hops, hl]
  obtain ⟨codec, hd⟩ := hc.describe? hl
  obtain ⟨hnodup, bs, rfl, hbs⟩ := Reference.describe?_union hd
  obtain ⟨b, hb, -, hof⟩ := exists_branchFor? hbs hv
  obtain rfl : b.codec.term = part := Option.some.inj (hof.part.symm.trans hp)
  have hw : c.Writes s b.codec.term (2 * v.depth) v j := fun calls hcalls =>
    hi.encode calls (by omega)
  refine roundTrips_of_writes hc hl hd rfl (writes_union hc hl hv hp hw) (by omega)
    fun calls hcalls => ?_
  rw [Json.depth, Json.depthMembers] at hcalls
  rw [Codec.decodeWith, ← hof.discriminator]
  refine Codec.decodeUnion_eq (Reference.map_discriminator hbs ▸ hnodup) hb
    (by rw [Members.get?_cons, if_pos rfl]) (fun b' _ hhas => ?_) (hi.decode calls (by omega))
  exact List.mem_singleton.1 (Members.has_iff.1 hhas)

end Catalog

end Typewire
