import Typewire.Proofs.Registry.Normalization

/-! # What decodes is a value of its type

The value of a document that decodes, said place by place: which value of the type it is, and which
part of the document each of its parts is the value of.
-/

namespace Typewire

namespace Catalog

/-- The value is of the type and has the parts of the document: the items of a list or an array, in
which nulls stay null, an entry for each member of a map, in the order of labels, the fields of a
record from members of properties that are read, and the variant of a union that is present. -/
inductive TypedAs (c : Catalog) (s : Settings) : TypeTerm → Json → Value → Prop
  | atomic {term : TypeTerm} {kind : AtomicKind} {j : Json} {v : Value} :
      c.layout? term = some (.atomic kind) → kind.Takes j v → TypedAs c s term j v
  | enumeration {term : TypeTerm} {layout : EnumLayout} {m : EnumMember} :
      c.layout? term = some (.enumeration layout) → m ∈ layout.members →
      TypedAs c s term (.str m.label) (.enum term.head m.ident)
  | sequence {term part : TypeTerm} {container : Container} {element : TypeScheme}
      {js : List Json} {vs : List Value} : c.layout? term = some (.sequence container element) →
      s.part? term element = some part → vs.length = js.length →
      (∀ e ∈ js.zip vs, e.2 = .null ↔ e.1.isNull = true) →
      (∀ e ∈ js.zip vs, e.2 ≠ .null → TypedAs c s part e.1 e.2) →
      TypedAs c s term (.arr js) (.sequence container vs)
  | map {term keyPart valuePart : TypeTerm} {key value : TypeScheme}
      {members : List (String × Json)} {entries : List (Value × Value)} :
      c.layout? term = some (.map key value) → s.part? term key = some keyPart →
      s.part? term value = some valuePart → (entries.map Prod.fst).Nodup →
      (entries.map fun entry => c.label entry.1).Pairwise (· < ·) →
      entries.map (fun entry => c.label entry.1) = Members.names members →
      (∀ e ∈ members.zip entries, TypedAs c s keyPart (.str e.1.1) e.2.1) →
      (∀ e ∈ members.zip entries, e.2.2 = .null ↔ e.1.2.isNull = true) →
      (∀ e ∈ members.zip entries, e.2.2 ≠ .null → TypedAs c s valuePart e.1.2 e.2.2) →
      TypedAs c s term (.obj members) (.map entries)
  | record {term : TypeTerm} {layout : RecordLayout} {members : List (String × Json)}
      {fields : List (String × Value)} (part : String → TypeTerm) (source : String → Json) :
      c.layout? term = some (.record layout) → Fields.Proper fields →
      (∀ entry ∈ fields, ∃ p ∈ layout.properties, p.name = entry.1 ∧ p.deserializable = true ∧
        s.part? term p.type = some (part entry.1) ∧
        Members.get? entry.1 members = some (source entry.1)) →
      (∀ entry ∈ fields, TypedAs c s (part entry.1) (source entry.1) entry.2) →
      (∀ p ∈ layout.properties, p.deserializable = true → p.mandatory = true →
        Fields.get p.name fields ≠ .null) →
      TypedAs c s term (.obj members) (.object term.head fields)
  | union {term part : TypeTerm} {layout : UnionLayout} {variant : Variant}
      {members : List (String × Json)} {j : Json} {v : Value} :
      c.layout? term = some (.union layout) → variant ∈ layout.variants →
      s.part? term variant.target = some part →
      Members.get? variant.discriminator members = some j →
      (∀ w ∈ layout.variants, Members.has w.discriminator members = true → w = variant) →
      TypedAs c s part j v → TypedAs c s term (.obj members) v

variable {c : Catalog} {s : Settings} {term : TypeTerm} {j : Json} {v : Value}

theorem Fills.exists_source {layout : RecordLayout} {members : Members Json}
    {fields : Members Value} (h : Fills s layout members fields) (hc : c.Resolved s term)
    (hl : c.layout? term = some (.record layout)) : ∃ (part : String → TypeTerm)
      (source : String → Json), ∀ entry ∈ fields, ∃ p ∈ layout.properties, p.name = entry.1 ∧
        p.deserializable = true ∧ s.part? term p.type = some (part entry.1) ∧
        Members.get? entry.1 members = some (source entry.1) ∧
        (source entry.1).isNull = false ∧ Fields.get p.name fields = entry.2 := by
  have hall : ∀ name, Fields.get name fields ≠ .null → ∃ part j, ∃ p ∈ layout.properties,
      p.name = name ∧ p.deserializable = true ∧ s.part? term p.type = some part ∧
        Members.get? name members = some j ∧ j.isNull = false := by
    intro name hne
    obtain ⟨p, hp, hname, hdes, j, hj⟩ := h.member name hne
    obtain ⟨part, hpart⟩ := hc.exists_part hl hp
    exact ⟨part, j, p, hp, hname, hdes, hpart, hj⟩
  choose! part source hsource using hall
  refine ⟨part, source, fun entry hentry => ?_⟩
  obtain ⟨hne, hget⟩ := h.proper.mem_iff.1 hentry
  obtain ⟨p, hp, hname, hdes, hpart, hj, hnull⟩ := hsource entry.1 (hget ▸ hne)
  exact ⟨p, hp, hname, hdes, hpart, hj, hnull, hname ▸ hget⟩

theorem eq_null_iff_isNull (hnull : j.isNull = true → v = .null)
    (hreads : j.isNull = false → c.Reads s term j v) : v = .null ↔ j.isNull = true := by
  refine ⟨fun hv => ?_, hnull⟩
  by_contra hn
  exact (hreads (Bool.eq_false_iff.2 hn)).ne_null hv

theorem Reads.typedAs (h : c.Reads s term j v) (hj : j.Valid)
    (hc : ∀ t, c.Reachable s term t → c.Resolved s t) : c.TypedAs s term j v := by
  induction h with
  | atomic hl hd => exact .atomic hl (takes_of_decodeAtomic hd hj)
  | enumeration hl hmem => exact .enumeration hl hmem
  | @sequence _ _ _ _ js vs hl hp hlength hnull hreads ih =>
    have hnulls : ∀ e ∈ js.zip vs, e.2 = .null ↔ e.1.isNull = true :=
      fun e he => eq_null_iff_isNull (hnull e he) (hreads e he)
    refine .sequence hl hp hlength.symm hnulls fun e he hne => ?_
    -- A null in the document was read as null.
    have hn : e.1.isNull = false := Bool.eq_false_iff.2 (mt (hnull e he) hne)
    exact ih e he hn (hj.items _ (List.of_mem_zip he).1) fun t ht => hc t (.head (.item hl hp) ht)
  | @map _ keyPart _ _ _ members entries hl hk hv hkind hlength hkeys hnull hreads ihk ih =>
    have hkeyPart := fun t ht => hc t (.head (.key hl hk) ht)
    have hlabels := map_label_of_reads (hkeyPart _ .refl) hkind hlength hkeys
    have hnodup : ((entries.map Prod.fst).map c.label).Nodup := by
      rw [List.map_map]
      exact (hlabels.symm ▸ hj.sorted.nodup : (entries.map fun entry => c.label entry.1).Nodup)
    have hnulls : ∀ e ∈ members.zip entries, e.2.2 = .null ↔ e.1.2.isNull = true :=
      fun e he => eq_null_iff_isNull (hnull e he) (hreads e he)
    refine .map hl hk hv hnodup.of_map (hlabels ▸ hj.sorted) hlabels
      (fun e he => ihk e he (.str _) hkeyPart) hnulls fun e he hne => ?_
    have hn : e.1.2.isNull = false := Bool.eq_false_iff.2 (mt (hnull e he) hne)
    exact ih e he hn (hj.members _ (List.of_mem_zip he).1)
      fun t ht => hc t (.head (.entry hl hv) ht)
  | @record term layout members fields hl hfills hreads ih =>
    obtain ⟨part, source, hsource⟩ := hfills.exists_source (hc _ .refl) hl
    refine .record part source hl hfills.proper (fun entry hentry => ?_) (fun entry hentry => ?_)
      fun p hp hdes hman => ?_
    · obtain ⟨p, hp, hname, hdes, hpart, hget, -⟩ := hsource entry hentry
      exact ⟨p, hp, hname, hdes, hpart, hget⟩
    · obtain ⟨p, hp, hname, hdes, hpart, hget, hn, hvalue⟩ := hsource entry hentry
      exact hvalue ▸ ih p hp hdes _ _ hpart (hname ▸ hget) hn
        (hj.members _ (Members.mem_of_get? hget)) fun t ht => hc t (.head (.field hl hp hpart) ht)
    · obtain ⟨i, hi, hn⟩ := hfills.mandatory p hp hdes hman
      obtain ⟨part', hpart⟩ := (hc _ .refl).exists_part hl hp
      exact (hreads p hp hdes part' i hpart hi hn).ne_null
  | union hl hv hp hi hone _ ih =>
    exact .union hl hv hp hi hone (ih (hj.members _ (Members.mem_of_get? hi))
      fun t ht => hc t (.head (.variant hl hv hp) ht))

end Catalog

namespace Registry

/-- What a document decodes to, in a registry over a catalogue from a file without codecs and
factories of its own, is a value of the type that was asked for. -/
theorem typedAs_of_decode {f : CatalogFile} {r : Except CatalogError Unit} {c : Catalog}
    {s : Settings} {reg : Registry} {ref : CodecRef} {j : Json} {v : Value}
    (hf : f.registerInto .initial = (r, c)) (h : Plain c.host s (fun _ => none) reg)
    (hp : reg.Publishes ref) (hj : j.Valid) (hd : reg.store.decode ref j = .ok v) :
    c.TypedAs s ref.term j v :=
  (reads_of_decode h hp (CatalogFile.standard_of_registerInto hf) hd).typedAs hj
    fun _ => resolved_of_reachable h hp

theorem typedAs_of_decode_figure : ∃ v, (shapes "Figure").store.decode ⟨⟨"Figure", []⟩, 0⟩
    (.obj [("square", .obj [("note", .str "a"), ("side", .int 3)])]) = .ok v ∧
      Catalog.shapes.TypedAs {} ⟨"Figure", []⟩
        (.obj [("square", .obj [("note", .str "a"), ("side", .int 3)])]) v := by
  obtain ⟨v, hv⟩ : ∃ v, (shapes "Figure").store.decode ⟨⟨"Figure", []⟩, 0⟩
      (.obj [("square", .obj [("note", .str "a"), ("side", .int 3)])]) = .ok v :=
    Except.exists_of_isOk (by decide +kernel)
  exact ⟨v, hv, typedAs_of_decode registerInto_shapes (plain_shapes "Figure") publishes_figure
    valid_square hv⟩

end Registry

end Typewire
