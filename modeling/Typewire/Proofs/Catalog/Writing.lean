import Typewire.Proofs.Catalog.Describe
import Typewire.Proofs.Codec.RoundTrip

/-! # Writing values

For each kind of layout, a value is written if its parts are, with one call more inside one another.
-/

namespace Typewire

namespace Catalog

variable {c : Catalog} {s : Settings} {term part : TypeTerm} {v : Value} {j : Json} {depth : Nat}

/-- With more calls than the depth, the value becomes the document. -/
def Writes (c : Catalog) (s : Settings) (term : TypeTerm) (depth : Nat) (v : Value) (j : Json) :
    Prop :=
  ∀ calls, depth < calls → (c.reference s).encodeWithin calls term v = pure j

theorem Writes.mono (h : c.Writes s term depth v j) {depth' : Nat} (hle : depth ≤ depth') :
    c.Writes s term depth' v j :=
  fun calls hcalls => h calls (Nat.lt_of_le_of_lt hle hcalls)

theorem writes_of_step (hc : c.Resolved s term) {layout : Layout} {codec : Codec}
    (hl : c.layout? term = some layout) (hd : Reference.describe? s term layout = some codec)
    (h : ∀ calls, depth ≤ calls →
      codec.encodeWith (fun ref => (c.reference s).encodeWithin calls ref.term)
        (c.reference s).scope v = pure j) : c.Writes s term depth v j := by
  intro calls hcalls
  obtain ⟨n, rfl⟩ := Nat.exists_eq_add_one.2 (Nat.zero_lt_of_lt hcalls)
  rw [hc.encodeWithin hl hd]
  exact h n (by omega)

theorem encodeWithin_alike (hc : c.Resolved s term) {layout : Layout} {codec : Codec}
    (hl : c.layout? term = some layout) (hd : Reference.describe? s term layout = some codec)
    {w : Value} (h : ∀ calls,
      codec.encodeWith (fun ref => (c.reference s).encodeWithin calls ref.term)
          (c.reference s).scope w =
        codec.encodeWith (fun ref => (c.reference s).encodeWithin calls ref.term)
          (c.reference s).scope v) (calls : Nat) :
    (c.reference s).encodeWithin calls term w = (c.reference s).encodeWithin calls term v := by
  cases calls with
  | zero => rfl
  | succ n => rw [hc.encodeWithin hl hd, hc.encodeWithin hl hd, h]

/-- The same for a part that may be null. -/
structure PartWrites (c : Catalog) (s : Settings) (term : TypeTerm) (depth : Nat) (v : Value)
    (j : Json) : Prop where
  null : v = .null → j = .null
  writes : v ≠ .null → c.Writes s term depth v j

theorem PartWrites.encodes {ref : CodecRef} (h : c.PartWrites s ref.term depth v j) {calls : Nat}
    (hcalls : depth < calls) :
    Codec.PartEncodes (fun ref => (c.reference s).encodeWithin calls ref.term) ref v j :=
  ⟨h.null, fun hv => h.writes hv calls hcalls⟩

theorem exists_image {P : Value → Json → Prop} {vs : List Value}
    (h : ∀ v ∈ vs, v ≠ .null → ∃ j, P v j) : ∃ image : Value → Json,
      ∀ v ∈ vs, (v = .null → image v = .null) ∧ (v ≠ .null → P v (image v)) := by
  choose! image himage using h
  refine ⟨fun v => if v.isNull then .null else image v, fun v hv => ⟨?_, fun hne => ?_⟩⟩
  · rintro rfl
    rfl
  · have hn : ¬ v.isNull = true := fun hn => hne (Value.isNull_iff.1 hn)
    simp only [if_neg hn]
    exact himage v hv hne

theorem exists_partWrites {vs : List Value}
    (h : ∀ v ∈ vs, v ≠ .null → ∃ j, c.Writes s part depth v j) :
    ∃ image : Value → Json, ∀ v ∈ vs, c.PartWrites s part depth v (image v) := by
  obtain ⟨image, himage⟩ := exists_image h
  exact ⟨image, fun v hv => ⟨(himage v hv).1, (himage v hv).2⟩⟩

theorem exists_encodeAtomic {kind : AtomicKind} (hv : kind.Admits v) :
    ∃ j, Scalar.encodeAtomic kind v = .ok j := by
  cases kind <;> cases v <;> simp_all [AtomicKind.Admits, Scalar.encodeAtomic]

theorem writes_atomic (hc : c.Resolved s term) {kind : AtomicKind}
    (hl : c.layout? term = some (.atomic kind)) (hv : Scalar.encodeAtomic kind v = .ok j) :
    c.Writes s term 0 v j := by
  refine writes_of_step hc hl rfl fun calls _ => ?_
  rw [Codec.encodeWith, hv]
  rfl

structure Names (c : Catalog) (s : Settings) (term : TypeTerm) (k : Value) : Prop where
  ne_null : k ≠ .null
  encode : ∀ calls, (c.reference s).encodeWithin (calls + 1) term k = pure (.str (c.label k))
  decode : ∀ calls, (c.reference s).decodeWithin (calls + 1) term (.str (c.label k)) = .ok k

theorem Names.writes (h : c.Names s term v) : c.Writes s term 0 v (.str (c.label v)) := by
  intro calls hcalls
  obtain ⟨n, rfl⟩ := Nat.exists_eq_add_one.2 hcalls
  exact h.encode n

theorem Names.inj {k k' : Value} (h : c.Names s term k) (h' : c.Names s term k')
    (hl : c.label k = c.label k') : k = k' := by
  have hd := h.decode 0
  rw [hl, h'.decode 0] at hd
  exact (Except.ok.inj hd).symm

theorem names_string (hc : c.Resolved s term) (hl : c.layout? term = some (.atomic .string))
    (hv : AtomicKind.string.Admits v) : c.Names s term v := by
  have hd : Reference.describe? s term (.atomic .string) = some (.atomic .string) := rfl
  cases v with
  | string text =>
    refine ⟨Value.noConfusion, fun calls => ?_, fun calls => ?_⟩
    · rw [hc.encodeWithin hl hd]
      rfl
    · rw [hc.decodeWithin hl hd]
      rfl
  | _ => cases hv

theorem label_enum {layout : EnumLayout} {m : EnumMember}
    (hl : c.layout? term = some (.enumeration layout))
    (hn : (layout.members.map EnumMember.ident).Nodup) (hm : m ∈ layout.members) :
    c.label (.enum term.head m.ident) = m.label := by
  obtain ⟨d, hdef, hdl⟩ := Option.map_eq_some_iff.1 hl
  obtain ⟨name, params, l⟩ := d
  cases hdl
  have hfind : layout.member? m.ident = some m := find?_of_nodup hn hm
  simp only [label, hdef, hfind, Option.map_some, Option.getD_some]

theorem names_enumeration (hc : c.Resolved s term) {layout : EnumLayout} {m : EnumMember}
    (hl : c.layout? term = some (.enumeration layout)) (hm : m ∈ layout.members) :
    c.Names s term (.enum term.head m.ident) := by
  obtain ⟨codec, hd⟩ := hc.describe? hl
  obtain ⟨hidents, hlabels, rfl⟩ := Reference.describe?_enumeration hd
  have hmem : (m.ident, m.label) ∈ layout.members.map fun m => (m.ident, m.label) :=
    List.mem_map_of_mem hm
  have hlabel := label_enum hl hidents hm
  refine ⟨Value.noConfusion, fun calls => ?_, fun calls => ?_⟩
  · have henc := Scalar.encodeEnum_of_mem term.head (by rwa [List.map_map]) hmem
    rw [hc.encodeWithin hl hd, Codec.encodeWith, henc, hlabel]
    rfl
  · have hdec := Scalar.decodeEnum_of_mem term.head (by rwa [List.map_map]) hmem
    rw [hc.decodeWithin hl hd, Codec.decodeWith, hlabel, hdec]
    rfl

theorem writes_sequence (hc : c.Resolved s term) {container : Container} {element : TypeScheme}
    {items : List Value} {image : Value → Json}
    (hl : c.layout? term = some (.sequence container element))
    (hp : s.part? term element = some part)
    (hi : ∀ v ∈ items, c.PartWrites s part depth v (image v)) :
    c.Writes s term (depth + 1) (.sequence container items) (.arr (items.map image)) := by
  have hd : Reference.describe? s term (.sequence container element) =
      some (.sequence container ⟨part, 0⟩) := by
    rw [Reference.describe?, hp]
    rfl
  refine writes_of_step hc hl hd fun calls hcalls => ?_
  rw [Codec.encodeWith, Codec.encodeItems_eq_pure_iff.2, pure_bind]
  exact List.forall₂_map_right_iff.2 (List.forall₂_same.2 fun v hv => (hi v hv).encodes hcalls)

theorem nodup_labels {entries : List (Value × Value)} (hn : (entries.map Prod.fst).Nodup)
    (hkeys : ∀ e ∈ entries, c.Names s part e.1) : (entries.map fun e => c.label e.1).Nodup := by
  have hinj : ∀ k ∈ entries.map Prod.fst, ∀ k' ∈ entries.map Prod.fst,
      c.label k = c.label k' → k = k' := by
    intro k hk k' hk' hl
    obtain ⟨e, he, rfl⟩ := List.mem_map.1 hk
    obtain ⟨e', he', rfl⟩ := List.mem_map.1 hk'
    exact (hkeys e he).inj (hkeys e' he') hl
  have h := (List.nodup_map_iff_inj_on hn).2 hinj
  rwa [List.map_map] at h

theorem writes_map (hc : c.Resolved s term) {key value : TypeScheme}
    {keyPart valuePart : TypeTerm} {entries : List (Value × Value)} {image : Value → Json}
    (hl : c.layout? term = some (.map key value)) (hk : s.part? term key = some keyPart)
    (hv : s.part? term value = some valuePart)
    (hs : (c.reference s).scope.isStringBacked ⟨keyPart, 0⟩ = true)
    (hn : (entries.map fun e => c.label e.1).Nodup)
    (hkeys : ∀ e ∈ entries, c.Names s keyPart e.1)
    (hi : ∀ e ∈ entries, c.PartWrites s valuePart depth e.2 (image e.2)) :
    c.Writes s term (depth + 1) (.map entries)
      (.obj (Members.ofList (entries.map fun e => (c.label e.1, image e.2)))) := by
  have hd : Reference.describe? s term (.map key value) =
      some (.map term ⟨keyPart, 0⟩ ⟨valuePart, 0⟩) := by
    rw [Reference.describe?, hk, hv]
    rfl
  refine writes_of_step hc hl hd fun calls hcalls => ?_
  obtain ⟨n, rfl⟩ := Nat.exists_eq_add_one.2 (Nat.zero_lt_of_lt hcalls)
  rw [Codec.encodeWith, hs, Codec.encodeEntries_eq c.label image hn
    (fun e he => Codec.encodeKey_eq (hkeys e he).ne_null ((hkeys e he).encode n))
    (fun e he => (hi e he).encodes hcalls), pure_bind]

def recordMembers (layout : RecordLayout) (fields : Members Value) (image : String → Json) :
    Members Json :=
  Members.ofList ((layout.properties.filter (Codec.writes fields)).map fun p =>
    (p.name, image p.name))

theorem mem_names_recordMembers {layout : RecordLayout} {fields : Members Value}
    {image : String → Json} {name : String}
    (hm : name ∈ Members.names (recordMembers layout fields image)) :
    ∃ p ∈ layout.properties, p.name = name ∧ Codec.writes fields p = true := by
  obtain ⟨entry, he, rfl⟩ := List.mem_map.1 hm
  obtain ⟨p, hp, rfl⟩ := List.mem_map.1 (Members.mem_ofList he)
  obtain ⟨hp, hw⟩ := List.mem_filter.1 hp
  exact ⟨p, hp, rfl, hw⟩

theorem writes_record (hm : c.Standard) (hc : c.Resolved s term) {layout : RecordLayout}
    {type : TypeName} {fields : Members Value} {image : String → Json}
    (hl : c.layout? term = some (.record layout))
    (hmand : ∀ p ∈ layout.properties, p.serializable = true → p.mandatory = true →
      Fields.get p.name fields ≠ .null)
    (hi : ∀ p ∈ layout.properties, Codec.writes fields p = true → ∀ part,
      s.part? term p.type = some part →
        c.Writes s part depth (Fields.get p.name fields) (image p.name)) :
    c.Writes s term (depth + 1) (.object type fields)
      (.obj (recordMembers layout fields image)) := by
  obtain ⟨codec, hd⟩ := hc.describe? hl
  obtain ⟨-, fs, rfl, hfs, hparts⟩ := Reference.describe?_record hd
  have hmem : ∀ f ∈ fs, f.property ∈ layout.properties := fun f hf => hfs ▸ List.mem_map_of_mem hf
  refine writes_of_step hc hl hd fun calls hcalls => ?_
  rw [Codec.encodeWith, Codec.encodeFields_eq image
    (fun f hf => (hm.record hl).get _ (hmem f hf)) (fun f hf => hmand _ (hmem f hf))
    (fun f hf hw => hi _ (hmem f hf) hw _ (hparts f hf) calls hcalls), pure_bind, recordMembers,
    ← hfs, List.filter_map, List.map_map]
  rfl

def variantFor? (c : Catalog) (s : Settings) (term : TypeTerm) (layout : UnionLayout)
    (v : Value) : Option Variant :=
  layout.variants.find? fun w => (s.part? term w.target).any (c.isInstance v)

theorem exists_branchFor? {layout : UnionLayout} {bs : List BranchCodec} {variant : Variant}
    (h : List.Forall₂ (Reference.BranchOf s term) layout.variants bs)
    (hv : c.variantFor? s term layout v = some variant) :
    ∃ b ∈ bs, Codec.branchFor? c.isInstance bs v = some b ∧
      Reference.BranchOf s term variant b := by
  rw [variantFor?] at hv
  generalize layout.variants = vs at h hv
  induction h with
  | nil => cases hv
  | @cons w b vs bs hwb _ ih =>
    have hinst : c.isInstance v b.target = (s.part? term w.target).any (c.isInstance v) := by
      rw [hwb.part, Option.any_some, isInstance, isInstance, hwb.head]
    rw [Codec.branchFor?, List.find?_cons, hinst]
    rw [List.find?_cons] at hv
    split at hv
    · cases hv
      exact ⟨b, List.mem_cons_self, rfl, hwb⟩
    · obtain ⟨b', hb', hfor, hof⟩ := ih hv
      exact ⟨b', List.mem_cons_of_mem _ hb', hfor, hof⟩

/-- Where no variant is a subtype of an earlier one, it is the one that the value is typed by. -/
theorem variantFor?_eq {layout : UnionLayout} {variant : Variant}
    (ho : layout.variants.Pairwise fun v w => ∀ earlier later,
      s.part? term v.target = some earlier → s.part? term w.target = some later →
        ¬ Leads c.supertypes later.head earlier.head)
    (hv : variant ∈ layout.variants) (hp : s.part? term variant.target = some part)
    (ht : v.runtimeType? = some part.head) : c.variantFor? s term layout v = some variant := by
  rw [variantFor?]
  generalize layout.variants = vs at ho hv
  have hinst : ∀ t, c.isInstance v t = c.isSubtype part.head t.head := by
    intro t
    rw [isInstance, ht, Option.any_some]
  induction vs with
  | nil => cases hv
  | cons w vs ih =>
    obtain ⟨hw, ho⟩ := List.pairwise_cons.1 ho
    rcases List.mem_cons.1 hv with rfl | hv
    · refine List.find?_cons_of_pos ?_
      rw [hp, Option.any_some, hinst]
      exact c.isSubtype_self part.head
    -- An earlier variant with this value as an instance would stand above the variant itself.
    · rw [List.find?_cons_of_neg]
      · exact ih ho hv
      · intro hany
        obtain ⟨earlier, hearlier, hsub⟩ := (Option.any_eq_true _ _).1 hany
        rw [hinst] at hsub
        exact hw variant hv _ _ hearlier hp (leads_of_isSubtype hsub)

theorem writes_union (hc : c.Resolved s term) {layout : UnionLayout} {variant : Variant}
    (hl : c.layout? term = some (.union layout))
    (hv : c.variantFor? s term layout v = some variant)
    (hp : s.part? term variant.target = some part) (hi : c.Writes s part depth v j) :
    c.Writes s term (depth + 1) v (.obj [(variant.discriminator, j)]) := by
  obtain ⟨codec, hd⟩ := hc.describe? hl
  obtain ⟨-, bs, rfl, hbs⟩ := Reference.describe?_union hd
  obtain ⟨b, -, hfor, hof⟩ := exists_branchFor? hbs hv
  obtain rfl := Option.some.inj (hof.part.symm.trans hp)
  refine writes_of_step hc hl hd fun calls hcalls => ?_
  rw [Codec.encodeWith_union hfor, hi calls hcalls, ← hof.discriminator]
  rfl

end Catalog

end Typewire
