import Typewire.Proofs.Catalog.Reading
import Typewire.Proofs.Catalog.Standard
import Typewire.Proofs.Catalog.Subtype
import Typewire.Proofs.Codec.Termination
import Typewire.Proofs.Codec.Variants
import Typewire.Proofs.Registry.Refinement

/-! # Dispatch of unions

A union over a catalogue reads by the discriminators that are there and writes by the declared
supertypes. What it has read through a variant it writes through the first variant whose type the
type of that one leads to, so not through a later one.
-/

namespace Typewire

/-- Values of the type say that it is theirs. -/
def Layout.isConcrete : Layout → Bool
  | .record _ => true
  | .enumeration _ => true
  | _ => false

deriving instance DecidableEq for BranchCodec

def Codec.union? : Codec → Option (TypeTerm × List BranchCodec)
  | union owner branches => some (owner, branches)
  | _ => none

theorem Codec.eq_union_of_union? {codec? : Option Codec} {owner : TypeTerm}
    {branches : List BranchCodec} (h : codec?.bind Codec.union? = some (owner, branches)) :
    codec? = some (.union owner branches) := by
  obtain ⟨codec, rfl, h⟩ := Option.bind_eq_some_iff.1 h
  cases codec with
  | union =>
    cases h
    rfl
  | _ => cases h

/-- Variants as a union is built with: discriminators are distinct, and codecs are of the types of
the targets. -/
structure BranchCodec.Proper (branches : List BranchCodec) : Prop where
  distinct : (branches.map BranchCodec.discriminator).Nodup
  head : ∀ b ∈ branches, b.target.head = b.codec.term.head

namespace Catalog

structure Derived (c : Catalog) (s : Settings) (store : Store) (ref : CodecRef) (layout : Layout)
    (codec : Codec) : Prop where
  layout? : c.layout? ref.term = some layout
  codec? : store.codec? ref = some codec
  described : Reference.describe? s ref.term layout = some codec.bare

variable {c : Catalog} {s : Settings} {store : Store} {ref : CodecRef} {j : Json} {v : Value}

theorem Derived.exists_record {layout : RecordLayout} {codec : Codec}
    (h : c.Derived s store ref (.record layout) codec) :
    (layout.properties.map Property.name).Nodup ∧
      ∃ fs, codec = .record ref.term layout.constructor fs s.denyUnknownFields ∧
        fs.map FieldCodec.property = layout.properties := by
  obtain ⟨hn, fs, he, hfs, -⟩ := Reference.describe?_record h.described
  cases codec with
  | record owner constructor fs' strict =>
    injection he with howner hconstructor hfields hstrict
    refine ⟨hn, fs', by rw [howner, hconstructor, hstrict], ?_⟩
    rw [← hfs, ← hfields, List.map_map]
    rfl
  | _ => cases he

theorem Derived.eq_enumeration {layout : EnumLayout} {codec : Codec}
    (h : c.Derived s store ref (.enumeration layout) codec) :
    codec = .enumeration ref.term.head (layout.members.map fun m => (m.ident, m.label)) := by
  obtain ⟨-, -, he⟩ := Reference.describe?_enumeration h.described
  cases codec with
  | enumeration => exact he
  | _ => cases he

theorem Derived.runtimeType? {layout : Layout} {codec : Codec} (hm : c.Standard)
    (h : c.Derived s store ref layout codec) (hl : layout.isConcrete = true)
    (hd : store.decode ref j = .ok v) : v.runtimeType? = some ref.term.head := by
  rw [Store.decode_eq h.codec?] at hd
  cases layout with
  | record layout =>
    obtain ⟨hn, fs, rfl, hfs⟩ := h.exists_record
    cases j with
    | obj members =>
      obtain ⟨fields, rfl, -⟩ :=
        (hm.record h.layout?).assembled.exists_of_decodeRecord hn hfs hd
      rfl
    | _ => cases hd
  | enumeration layout =>
    rw [h.eq_enumeration] at hd
    obtain ⟨m, -, rfl, -⟩ := Scalar.exists_of_decodeEnum (Decoding.eq_of_ofExcept hd)
    rfl
  | _ => cases hl

theorem Derived.proper {layout : UnionLayout} {owner : TypeTerm} {branches : List BranchCodec}
    (h : c.Derived s store ref (.union layout) (.union owner branches)) :
    BranchCodec.Proper branches := by
  obtain ⟨hn, bs, he, hbs⟩ := Reference.describe?_union h.described
  injection he with _ he
  subst he
  refine ⟨?_, fun b hb => ?_⟩
  · have hdiscriminators := Reference.map_discriminator hbs
    rw [List.map_map] at hdiscriminators
    exact hdiscriminators ▸ hn
  · obtain ⟨variant, -, hof⟩ := exists_left_of_forall₂ hbs (List.mem_map_of_mem hb)
    exact hof.head

theorem Derived.exists_union {layout : Layout} {owner : TypeTerm} {branches : List BranchCodec}
    (h : c.Derived s store ref layout (.union owner branches)) :
    ∃ union : UnionLayout, layout = .union union := by
  have hkind := Reference.kind_of_describe? h.described
  cases layout with
  | union layout => exact ⟨layout, rfl⟩
  | _ => cases hkind

/-- A value goes to the first variant that its type leads to. -/
theorem exists_first_branch {branches : List BranchCodec} {type : TypeName} {i : Nat}
    {b : BranchCodec} (hv : v.runtimeType? = some type) (hb : branches[i]? = some b)
    (hleads : Leads c.supertypes type b.target.head) :
    ∃ k first, k ≤ i ∧ branches[k]? = some first ∧
      Leads c.supertypes type first.target.head ∧
      (∀ m b', m < k → branches[m]? = some b' → ¬ Leads c.supertypes type b'.target.head) ∧
      Codec.branchFor? c.isInstance branches v = some first := by
  have hinstance : ∀ b' : BranchCodec, c.isInstance v b'.target = true ↔
      Leads c.supertypes type b'.target.head := by
    intro b'
    rw [isInstance, hv, Option.any_some, isSubtype_iff]
  cases hfirst : Codec.branchFor? c.isInstance branches v with
  | none =>
    have hnone := List.find?_eq_none.1 hfirst b (List.mem_of_getElem? hb)
    exact absurd ((hinstance b).2 hleads) hnone
  | some first =>
    obtain ⟨htakes, k, hk, hget, hbefore⟩ := List.find?_eq_some_iff_getElem.1 hfirst
    have hbefore : ∀ m b', m < k → branches[m]? = some b' →
        ¬ Leads c.supertypes type b'.target.head := by
      intro m b' hm hb' hl
      obtain ⟨hlt, rfl⟩ := List.getElem?_eq_some_iff.1 hb'
      have := hbefore m hm
      rw [(hinstance _).2 hl] at this
      cases this
    refine ⟨k, first, ?_, List.getElem?_eq_some_iff.2 ⟨hk, hget⟩, (hinstance first).1 htakes,
      hbefore, rfl⟩
    by_contra hlt
    exact hbefore i b (by omega) hb hleads

end Catalog

namespace Registry

theorem Plain.exists_derived {c : Catalog} {s : Settings} {customs : TypeTerm → Option Codec}
    {reg : Registry} {ref : CodecRef} (h : Plain c.host s customs reg) (hp : reg.Publishes ref)
    (hcustom : customs ref.term = none) :
    ∃ layout codec, c.Derived s reg.store ref layout codec := by
  obtain ⟨codec, layout, hs, hl, hd, -⟩ := h.described hp hcustom
  exact ⟨layout, codec, Catalog.layout?_iff.2 hl, hs, hd⟩

theorem Plain.isInstance {c : Catalog} {s : Settings} {customs : TypeTerm → Option Codec}
    {reg : Registry} (h : Plain c.host s customs reg) : reg.store.isInstance = c.isInstance :=
  congrArg Host.isInstance h.agrees.host

variable {f : CatalogFile} {r : Except CatalogError Unit} {c : Catalog} {s : Settings}
  {store : Store} {ref : CodecRef} {owner : TypeTerm} {branches : List BranchCodec}

/-- Take a union over a catalogue from a file whose variants are records and enumerations. It hands
the member of an object to a variant exactly if one discriminator is there, and says otherwise which
are. What it has read through a variant it does not refuse: it writes one member, for the first
variant whose type is that of the one it was read through or a declared supertype of it. That
variant is not a later one, and reading goes to it again. -/
theorem union_dispatch (hf : f.registerInto .initial = (r, c))
    (hi : store.isInstance = c.isInstance)
    (hu : store.codec? ref = some (.union owner branches)) (hp : BranchCodec.Proper branches)
    (ht : ∀ b ∈ branches, ∃ target codec, target.isConcrete = true ∧
      c.Derived s store b.codec target codec) (members : Members Json) :
    ((∃ b ∈ branches, ∃ i, Members.get? b.discriminator members = some i ∧
        store.decode ref (.obj members) =
          (store.decode b.codec i).under (.field b.discriminator)) ↔
      ∃! d, d ∈ branches.map BranchCodec.discriminator ∧ Members.has d members = true) ∧
    ((¬ ∃! d, d ∈ branches.map BranchCodec.discriminator ∧ Members.has d members = true) →
      store.decode ref (.obj members) = .fail (.discriminator
        ((branches.map BranchCodec.discriminator).filter fun d => Members.has d members)
        (branches.map BranchCodec.discriminator))) ∧
    ∀ (i : Nat) b v, branches[i]? = some b → Members.has b.discriminator members = true →
      store.decode ref (.obj members) = .ok v →
      ∃ (k : Nat) (first : BranchCodec), k ≤ i ∧ branches[k]? = some first ∧
        Catalog.Leads c.supertypes b.target.head first.target.head ∧
        (∀ (m : Nat) b', m < k → branches[m]? = some b' →
          ¬ Catalog.Leads c.supertypes b.target.head b'.target.head) ∧
        ∀ calls,
          (∀ owner' found, store.encodeWithin (calls + 1) ref v ≠
            .fail (.noVariant owner' found)) ∧
          ∀ j, store.encodeWithin (calls + 1) ref v = pure j →
            ∃ part, j = .obj [(first.discriminator, part)] ∧
              store.encodeWithin calls first.codec v = pure part ∧
              store.decode ref j =
                (store.decode first.codec part).under (.field first.discriminator) := by
  obtain ⟨hnodup, hheads⟩ := hp
  have hdecode : ∀ members, store.decode ref (.obj members) =
      Codec.decodeUnion store.decode branches members := by
    intro members
    rw [Store.decode_eq hu, Codec.decodeWith]
  simp only [hdecode members]
  refine ⟨Codec.hands_member_iff hnodup, fun hnot => ?_, fun i b v hb hhas hd => ?_⟩
  · rw [← Codec.exists_present_iff hnodup] at hnot
    exact Codec.decodeUnion_of_not_present (not_exists.1 hnot)
  · -- The variant that is present is the one that the member was read through.
    obtain ⟨b', j, hpresent, hget, hd⟩ := Codec.exists_of_decodeUnion hd
    have hmem := List.mem_of_getElem? hb
    have hsame : b ∈ Codec.presentBranches branches members := List.mem_filter.2 ⟨hmem, hhas⟩
    rw [hpresent, List.mem_singleton] at hsame
    subst hsame
    obtain ⟨target, codec, hconcrete, htarget⟩ := ht b hmem
    have htype := htarget.runtimeType? (CatalogFile.standard_of_registerInto hf) hconcrete hd
    rw [← hheads b hmem] at htype
    -- Its type leads to itself, so the first variant that takes the value is no later one.
    obtain ⟨k, first, hk, hfirst, hleads, hbefore, hbranch⟩ :=
      Catalog.exists_first_branch htype hb Relation.ReflTransGen.refl
    have hencode : ∀ calls, store.encodeWithin (calls + 1) ref v =
        (store.encodeWithin calls first.codec v).under (.field first.discriminator) >>=
          fun part => pure (.obj [(first.discriminator, part)]) := by
      intro calls
      rw [Store.encodeWithin, hu]
      refine Codec.encodeWith_union ?_
      change Codec.branchFor? store.isInstance branches v = some first
      rw [hi, hbranch]
    refine ⟨k, first, hk, hfirst, hleads, hbefore, fun calls => ⟨fun owner' found => ?_,
      fun j' hj' => ?_⟩⟩
    · rw [hencode]
      exact Encoding.under_bind_ne_fail _ _ _ _
    · rw [hencode] at hj'
      obtain ⟨part, hpart, hj'⟩ := Encoding.exists_of_bind hj'
      cases hj'
      refine ⟨part, rfl, Encoding.under_eq_pure_iff.1 hpart, ?_⟩
      rw [hdecode]
      refine Codec.decodeUnion_of_present
        (Codec.presentBranches_singleton hnodup (List.mem_of_getElem? hfirst) part) ?_
      rw [Members.get?_cons, if_pos rfl]

end Registry

def CatalogFile.notes : CatalogFile :=
  { records := [
      { name := "Note", params := ["T"], supertypes := ["Entry"]
        properties := [{ name := "content", type := "T" }] },
      { name := "Entry", supertypes := ["Note"]
        properties := [{ name := "id", type := "int", mandatory := true }] }]
    unions := [
      { name := "Item"
        variants := [⟨"note", "Note<string>"⟩, ⟨"count", "Note<int>"⟩, ⟨"entry", "Entry"⟩] }] }

namespace Registry

theorem exists_encoded {store : Store} {ref : CodecRef} {j : Json} {v : Value} (calls : Nat)
    (hd : store.decode ref j = .ok v) (h : ((store.decode ref j).toOption.bind fun v =>
      (store.encodeWithin calls ref v).run.map Except.isOk) = some true) :
    ∃ j', store.encodeWithin calls ref v = pure j' := by
  rw [hd] at h
  obtain ⟨result, hrun, hok⟩ := Option.map_eq_some_iff.1 h
  obtain ⟨j', rfl⟩ := Except.exists_of_isOk hok
  exact ⟨j', hrun⟩

def notes : Registry :=
  ((initial (CatalogFile.notes.registerInto .initial).2.host {}).lookup ⟨"Item", []⟩).2

theorem plain_notes :
    Plain (CatalogFile.notes.registerInto .initial).2.host {} (fun _ => none) notes :=
  .lookup _ .initial

theorem exists_derived_notes {ref : CodecRef} (hp : notes.Publishes ref) :
    ∃ layout codec,
      (CatalogFile.notes.registerInto .initial).2.Derived {} notes.store ref layout codec :=
  plain_notes.exists_derived hp rfl

/-- An entry that was read as such is written as a note. -/
theorem union_dispatch_notes : ∃ v part,
    notes.store.decode ⟨⟨"Item", []⟩, 0⟩ (.obj [("entry", .obj [("id", .int 1)])]) = .ok v ∧
      notes.store.encodeWithin 3 ⟨⟨"Item", []⟩, 0⟩ v = pure (.obj [("note", part)]) ∧
      notes.store.decode ⟨⟨"Item", []⟩, 0⟩ (.obj [("note", part)]) =
        (notes.store.decode ⟨⟨"Note", [⟨"string", []⟩]⟩, 1⟩ part).under (.field "note") := by
  let branches : List BranchCodec :=
    [⟨"note", ⟨"Note", [⟨"string", []⟩]⟩, ⟨⟨"Note", [⟨"string", []⟩]⟩, 1⟩⟩,
      ⟨"count", ⟨"Note", [⟨"int", []⟩]⟩, ⟨⟨"Note", [⟨"int", []⟩]⟩, 3⟩⟩,
      ⟨"entry", ⟨"Entry", []⟩, ⟨⟨"Entry", []⟩, 5⟩⟩]
  have hu : notes.store.codec? ⟨⟨"Item", []⟩, 0⟩ = some (.union ⟨"Item", []⟩ branches) :=
    Codec.eq_union_of_union? (by decide +kernel)
  have hp : ∀ ref ∈ ⟨⟨"Item", []⟩, 0⟩ :: branches.map BranchCodec.codec, notes.Publishes ref := by
    unfold Publishes
    decide +kernel
  obtain ⟨v, hv⟩ : ∃ v, notes.store.decode ⟨⟨"Item", []⟩, 0⟩
      (.obj [("entry", .obj [("id", .int 1)])]) = .ok v :=
    Except.exists_of_isOk (by decide +kernel)
  have hproper : BranchCodec.Proper branches := by
    obtain ⟨layout, codec, hd⟩ := exists_derived_notes (hp _ List.mem_cons_self)
    obtain rfl := Option.some.inj (hd.codec?.symm.trans hu)
    obtain ⟨union, rfl⟩ := hd.exists_union
    exact hd.proper
  have ht : ∀ b ∈ branches, ∃ target codec, target.isConcrete = true ∧
      (CatalogFile.notes.registerInto .initial).2.Derived {} notes.store b.codec target codec := by
    intro b hb
    obtain ⟨target, codec, hd⟩ :=
      exists_derived_notes (hp _ (List.mem_cons_of_mem _ (List.mem_map_of_mem hb)))
    have hconcrete : ∀ b ∈ branches, ((CatalogFile.notes.registerInto .initial).2.layout?
        b.codec.term).any Layout.isConcrete = true := by decide +kernel
    have hb := hconcrete b hb
    rw [hd.layout?, Option.any_some] at hb
    exact ⟨target, codec, hb, hd⟩
  obtain ⟨-, -, hwritten⟩ := union_dispatch (Prod.ext rfl rfl) plain_notes.isInstance hu hproper ht
    [("entry", .obj [("id", .int 1)])]
  obtain ⟨k, first, -, hfirst, -, hbefore, hcalls⟩ := hwritten 2 _ v rfl (by decide) hv
  -- An entry is a note, so no variant comes before that of notes.
  have hedge : ("Entry", "Note") ∈ (CatalogFile.notes.registerInto .initial).2.supertypes := by
    decide +kernel
  obtain rfl : k = 0 := by
    by_contra hk
    exact hbefore 0 _ (Nat.pos_of_ne_zero hk) rfl (.single hedge)
  cases hfirst
  obtain ⟨j, hj⟩ := exists_encoded 3 hv (by decide +kernel)
  obtain ⟨part, rfl, -, hagain⟩ := (hcalls 2).2 j hj
  exact ⟨v, part, hv, hj, hagain⟩

end Registry

end Typewire
