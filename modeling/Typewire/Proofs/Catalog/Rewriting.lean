import Typewire.Proofs.Binary64.Rounding
import Typewire.Proofs.Catalog.Reading
import Typewire.Proofs.Catalog.Writing
import Typewire.Proofs.Json.Validity

/-! # Writing what was read

A value that was read from a document can be written again if two things hold wherever a part is
read and written: nothing mandatory is only read, and a union takes the value for the variant that
it was read as.
-/

namespace Typewire

theorem Json.Valid.isFinite_ofInt {i : Int} (h : (Json.int i).Valid) :
    (Binary64.ofInt i).isFinite = true := by
  cases h with
  | int hlow hhigh =>
    have h63 : (1 : Int) <<< 63 = 9223372036854775808 := rfl
    have h64 : (1 : Int) <<< 64 = 18446744073709551616 := rfl
    exact Binary64.isFinite_ofInt (by omega)

/-- A scalar of the kind and its value, which is the same number. -/
inductive AtomicKind.Takes : AtomicKind → Json → Value → Prop
  | string (s : String) : Takes .string (.str s) (.string s)
  | bool (b : Bool) : Takes .bool (.bool b) (.bool b)
  | int {j : Json} {i : Int32} : Scalar.decodeWhole j = .ok i.toInt → Takes .int j (.int i)
  | long {j : Json} {i : Int64} : Scalar.decodeWhole j = .ok i.toInt → Takes .long j (.long i)
  | whole {i : Int} : (Binary64.ofInt i).isFinite = true →
      Takes .double (.int i) (.double (.ofInt i))
  | double {x : Binary64} : x.isFinite = true → Takes .double (.real x) (.double x)

namespace Catalog

variable {c : Catalog} {s : Settings} {term part : TypeTerm} {v : Value} {j : Json}

structure Place where
  term : TypeTerm
  document : Json

/-- The second place is a part of the first that is read and written with it. Nulls are not. -/
inductive Encloses (c : Catalog) (s : Settings) : Place → Place → Prop
  | item {term part : TypeTerm} {container : Container} {element : TypeScheme} {items : List Json}
      {j : Json} : c.layout? term = some (.sequence container element) →
      s.part? term element = some part → j ∈ items → j.isNull = false →
      Encloses c s ⟨term, .arr items⟩ ⟨part, j⟩
  | entry {term part : TypeTerm} {key value : TypeScheme} {members : Members Json}
      {e : String × Json} : c.layout? term = some (.map key value) →
      s.part? term value = some part → e ∈ members → e.2.isNull = false →
      Encloses c s ⟨term, .obj members⟩ ⟨part, e.2⟩
  | field {term part : TypeTerm} {layout : RecordLayout} {p : Property} {members : Members Json}
      {j : Json} : c.layout? term = some (.record layout) → p ∈ layout.properties →
      p.serializable = true → p.deserializable = true → s.part? term p.type = some part →
      Members.get? p.name members = some j → j.isNull = false →
      Encloses c s ⟨term, .obj members⟩ ⟨part, j⟩
  | variant {term part : TypeTerm} {layout : UnionLayout} {variant : Variant}
      {members : Members Json} {j : Json} : c.layout? term = some (.union layout) →
      variant ∈ layout.variants → s.part? term variant.target = some part →
      Members.get? variant.discriminator members = some j →
      Encloses c s ⟨term, .obj members⟩ ⟨part, j⟩

def Covers (c : Catalog) (s : Settings) : Place → Place → Prop :=
  Relation.ReflTransGen (c.Encloses s)

theorem Encloses.isPart {p q : Place} (h : c.Encloses s p q) : c.Part s p.term q.term := by
  cases h with
  | item hl hp => exact .item hl hp
  | entry hl hp => exact .entry hl hp
  | field hl hp _ _ hpart => exact .field hl hp hpart
  | variant hl hv hp => exact .variant hl hv hp

theorem Covers.reachable {p q : Place} (h : c.Covers s p q) : c.Reachable s p.term q.term :=
  h.lift Place.term fun _ _ h => h.isPart

/-- What is read at the place comes back when it is written. -/
structure Returns (c : Catalog) (s : Settings) (place : Place) : Prop where
  /-- What is mandatory and written is read. -/
  mandatory : ∀ layout, c.layout? place.term = some (.record layout) →
    ∀ p ∈ layout.properties, p.mandatory = true → p.serializable = true → p.deserializable = true
  /-- The first variant that the value is an instance of is the one that is present. -/
  dispatch : ∀ layout members v, c.layout? place.term = some (.union layout) →
    place.document = .obj members → (c.reference s).decode place.term place.document = .ok v →
    ∃ w, c.variantFor? s place.term layout v = some w ∧
      Members.has w.discriminator members = true

theorem fits64_of_decodeWhole {i : Int} (h : Scalar.decodeWhole j = .ok i) :
    Word.fits64 i = true := by
  unfold Scalar.decodeWhole at h
  split at h
  · split at h
    · cases h
      assumption
    · cases h
  · split at h
    · split at h
      · cases h
        assumption
      · cases h
    · cases h
  · cases h

theorem takes_of_decodeAtomic {kind : AtomicKind} (h : Scalar.decodeAtomic kind j = .ok v)
    (hj : j.Valid) : kind.Takes j v := by
  unfold Scalar.decodeAtomic at h
  split at h
  case h_1 s =>
    cases h
    exact .string s
  case h_3 b =>
    cases h
    exact .bool b
  case h_5 =>
    split at h
    · rename_i i hwhole
      split at h
      · rename_i hfits
        cases h
        exact .int (by rwa [Word.toInt_ofInt_of_fits32 hfits])
      · cases h
    · cases h
  case h_6 =>
    obtain ⟨i, hwhole, rfl⟩ := Except.exists_of_map h
    exact .long (by rwa [Word.toInt_ofInt_of_fits64 (fits64_of_decodeWhole hwhole)])
  case h_7 =>
    cases h
    exact .whole hj.isFinite_ofInt
  case h_8 =>
    cases h
    cases hj with
    | real hx => exact .double hx
  all_goals cases h

theorem admits_of_decodeAtomic {kind : AtomicKind} (h : Scalar.decodeAtomic kind j = .ok v)
    (hj : j.Valid) : kind.Admits v := by
  cases takes_of_decodeAtomic h hj with
  | whole hx | double hx => exact hx
  | _ => trivial

theorem Reads.names {name : String} (h : c.Reads s term (.str name) v) (hc : c.Resolved s term)
    (hk : c.layout? term = some (.atomic .string) ∨
      ∃ layout, c.layout? term = some (.enumeration layout)) :
    c.Names s term v ∧ c.label v = name := by
  generalize hj : Json.str name = j at h
  cases h with
  | atomic hl hd =>
    subst hj
    rcases hk with hk | ⟨layout, hk⟩ <;> cases hl.symm.trans hk
    cases hd
    exact ⟨names_string hc hl trivial, by simp [label]⟩
  | enumeration hl hm =>
    cases hj
    obtain ⟨codec, hd⟩ := hc.describe? hl
    exact ⟨names_enumeration hc hl hm, label_enum hl (Reference.describe?_enumeration hd).1 hm⟩
  | sequence | map | record | union => cases hj

section Parts

variable {α β : Type} {as : List α} {bs : List β} {b : β} (h : as.length = bs.length) (hb : b ∈ bs)

include h hb

theorem exists_fst_of_mem : ∃ a ∈ as, (a, b) ∈ as.zip bs :=
  exists_left_of_forall₂ (List.forall₂_iff_zip.2 ⟨h, fun he => he⟩) hb

theorem exists_given (f : α → Json) (g : β → Value)
    (hnull : ∀ e ∈ as.zip bs, (f e.1).isNull = true → g e.2 = .null) (hne : g b ≠ .null) :
    ∃ a ∈ as, (a, b) ∈ as.zip bs ∧ (f a).isNull = false := by
  obtain ⟨a, ha, he⟩ := exists_fst_of_mem h hb
  exact ⟨a, ha, he, Bool.eq_false_iff.2 fun hn => hne (hnull _ he hn)⟩

end Parts

section Keys

variable {members : Members Json} {entries : List (Value × Value)} (hc : c.Resolved s term)
  (hk : c.layout? term = some (.atomic .string) ∨
    ∃ layout, c.layout? term = some (.enumeration layout))
  (hlength : members.length = entries.length)
  (h : ∀ e ∈ members.zip entries, c.Reads s term (.str e.1.1) e.2.1)

include hc hk hlength h

theorem map_label_of_reads : entries.map (fun e => c.label e.1) = Members.names members := by
  have hall : List.Forall₂ (fun (e : String × Json) (entry : Value × Value) =>
      e.1 = c.label entry.1) members entries :=
    List.forall₂_iff_zip.2 ⟨hlength, fun he => ((h _ he).names hc hk).2.symm⟩
  have heq := List.forall₂_map_left_iff.2 (List.forall₂_map_right_iff.2 hall)
  rw [List.forall₂_eq_eq_eq] at heq
  exact heq.symm

theorem names_of_reads {entry : Value × Value} (hentry : entry ∈ entries) :
    c.Names s term entry.1 := by
  obtain ⟨e, -, he⟩ := exists_fst_of_mem hlength hentry
  exact ((h _ he).names hc hk).1

end Keys

theorem Fills.exists_writes {layout : RecordLayout} {members : Members Json}
    {fields : Members Value} (h : Fills s layout members fields) (hm : c.Standard)
    (hc : c.Resolved s term) (hl : c.layout? term = some (.record layout))
    (hmand : ∀ p ∈ layout.properties, p.serializable = true → p.mandatory = true →
      Fields.get p.name fields ≠ .null)
    (hi : ∀ p ∈ layout.properties, p.serializable = true → p.deserializable = true → ∀ part i,
      s.part? term p.type = some part → Members.get? p.name members = some i →
        i.isNull = false → ∃ j, c.Writes s part i.depth (Fields.get p.name fields) j) :
    ∃ j, c.Writes s term (Json.obj members).depth (.object term.head fields) j := by
  have hn := hc.nodup hl
  have himages : ∀ p ∈ layout.properties, Codec.writes fields p = true → ∃ j, ∀ part,
      s.part? term p.type = some part →
        c.Writes s part (Json.depthMembers members) (Fields.get p.name fields) j := by
    intro p hp hw
    obtain ⟨hser, hne⟩ := Codec.writes_iff.1 hw
    obtain ⟨hdes, i, hget, hnull⟩ := h.read hn hp hne
    obtain ⟨part, hpart⟩ := hc.exists_part hl hp
    obtain ⟨j, hj⟩ := hi p hp hser hdes part i hpart hget hnull
    refine ⟨j, fun part' hpart' => ?_⟩
    obtain rfl := Option.some.inj (hpart.symm.trans hpart')
    exact hj.mono (Json.depth_le_of_mem_members (Members.mem_of_get? hget))
  obtain ⟨image, himage⟩ := exists_byKey hn himages
  exact ⟨_, writes_record hm hc hl hmand himage⟩

/-- What was read is written, with calls for the depth of the document. -/
theorem Reads.exists_writes (h : c.Reads s term j v) (hj : j.Valid) (hm : c.Standard)
    (hc : ∀ t, c.Reachable s term t → c.Resolved s t)
    (hr : ∀ place, c.Covers s ⟨term, j⟩ place → c.Returns s place) :
    ∃ j', c.Writes s term j.depth v j' := by
  induction h with
  | atomic hl hd =>
    obtain ⟨j', hj'⟩ := exists_encodeAtomic (admits_of_decodeAtomic hd hj)
    exact ⟨j', (writes_atomic (hc _ .refl) hl hj').mono (Nat.zero_le _)⟩
  | enumeration hl hmem =>
    exact ⟨_, (names_enumeration (hc _ .refl) hl hmem).writes⟩
  | @sequence _ part _ _ js vs hl hp hlength hnull _ ih =>
    have hi : ∀ w ∈ vs, w ≠ .null → ∃ j', c.Writes s part (Json.depthItems js) w j' := by
      intro w hw hne
      obtain ⟨i, hi, he, hn⟩ := exists_given hlength hw id id hnull hne
      obtain ⟨j', hj'⟩ := ih _ he hn (hj.items i hi) (fun t ht => hc t (.head (.item hl hp) ht))
        fun place hcover => hr place (.head (.item hl hp hi hn) hcover)
      exact ⟨j', hj'.mono (Json.depth_le_of_mem_items hi)⟩
    obtain ⟨image, himage⟩ := exists_partWrites hi
    exact ⟨_, writes_sequence (hc _ .refl) hl hp himage⟩
  | @map _ keyPart valuePart _ _ members entries hl hk hv hkind hlength hreads hnull _ _ ih =>
    have hkeyPart := hc _ (.single (.key hl hk))
    have hi : ∀ w ∈ entries.map Prod.snd, w ≠ .null →
        ∃ j', c.Writes s valuePart (Json.depthMembers members) w j' := by
      intro w hw hne
      obtain ⟨entry, hentry, rfl⟩ := List.mem_map.1 hw
      obtain ⟨e, he, hz, hn⟩ := exists_given hlength hentry Prod.snd Prod.snd hnull hne
      obtain ⟨j', hj'⟩ := ih _ hz hn (hj.members e he)
        (fun t ht => hc t (.head (.entry hl hv) ht))
        fun place hcover => hr place (.head (.entry hl hv he hn) hcover)
      exact ⟨j', hj'.mono (Json.depth_le_of_mem_members he)⟩
    obtain ⟨image, himage⟩ := exists_partWrites hi
    have hlabels : (entries.map fun e => c.label e.1).Nodup :=
      map_label_of_reads hkeyPart hkind hlength hreads ▸ hj.sorted.nodup
    exact ⟨_, writes_map (hc _ .refl) hl hk hv (isStringBacked_reference hkeyPart hkind 0) hlabels
      (fun _ => names_of_reads hkeyPart hkind hlength hreads)
      fun entry hentry => himage entry.2 (List.mem_map_of_mem hentry)⟩
  | @record term layout members fields hl hfills hreads ih =>
    -- What is mandatory and written is read, so its member was there.
    have hmand : ∀ p ∈ layout.properties, p.serializable = true → p.mandatory = true →
        Fields.get p.name fields ≠ .null := by
      intro p hp hser hman
      have hdes := (hr _ .refl).mandatory layout hl p hp hman hser
      obtain ⟨i, hi, hnull⟩ := hfills.mandatory p hp hdes hman
      obtain ⟨part, hpart⟩ := (hc _ .refl).exists_part hl hp
      exact (hreads p hp hdes part i hpart hi hnull).ne_null
    refine hfills.exists_writes hm (hc _ .refl) hl hmand ?_
    intro p hp hser hdes part i hpart hi hnull
    exact ih p hp hdes part i hpart hi hnull (hj.members _ (Members.mem_of_get? hi))
      (fun t ht => hc t (.head (.field hl hp hpart) ht))
      fun place hcover => hr place (.head (.field hl hp hser hdes hpart hi hnull) hcover)
  | @union term part layout variant members i w hl hv hp hi hone hread ih =>
    have hdecode := (Reads.union hl hv hp hi hone hread).decodeWithin hm hc (Nat.lt_succ_self _)
    -- The variant that takes the value is present, and no other variant is.
    obtain ⟨w', hfor, hhas⟩ := (hr _ .refl).dispatch layout members w hl rfl hdecode
    obtain rfl := hone w' (List.mem_of_find?_eq_some hfor) hhas
    obtain ⟨j', hj'⟩ := ih (hj.members _ (Members.mem_of_get? hi))
      (fun t ht => hc t (.head (.variant hl hv hp) ht))
      fun place hcover => hr place (.head (.variant hl hv hp hi) hcover)
    exact ⟨_, writes_union (hc _ .refl) hl hfor hp
      (hj'.mono (Json.depth_le_of_mem_members (Members.mem_of_get? hi)))⟩

end Catalog

end Typewire
