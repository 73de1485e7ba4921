import Typewire.Proofs.Catalog.Record
import Typewire.Proofs.Catalog.Reordering
import Typewire.Proofs.Codec.Handing

/-! # Fields in another order

What a record is encoded to and what an object is decoded to depends on which fields there are, but
not on their order or on the numbers of their slots.
-/

namespace Typewire

namespace Encoding

variable {α β : Type} {x y : Encoding α}

/-- The second has the result of the first, if the first has one. -/
def Below (x y : Encoding α) : Prop := ∀ a, x = pure a → y = pure a

theorem Below.refl (x : Encoding α) : Below x x := fun _ h => h

theorem Below.bind (h : Below x y) {f g : α → Encoding β} (hf : ∀ a, Below (f a) (g a)) :
    Below (x >>= f) (y >>= g) := by
  intro b hb
  obtain ⟨a, ha, hb⟩ := exists_of_bind hb
  rw [h a ha, pure_bind]
  exact hf a b hb

theorem Below.under (h : Below x y) (step : Step) : Below (x.under step) (y.under step) :=
  fun a ha => under_eq_pure_iff.2 (h a (under_eq_pure_iff.1 ha))

end Encoding

namespace Codec

open Encoding (Below)

section Encode

variable {enc enc' : CodecRef → Value → Encoding Json} {owner : TypeTerm} {v : Value}

def encodeField (enc : CodecRef → Value → Encoding Json) (owner : TypeTerm) (v : Value)
    (f : FieldCodec) : Encoding (Option (String × Json)) :=
  if !f.property.serializable then pure none
  else
    match f.property.accessor.get v with
    | .error cause => .fail (.accessor f.property.name cause)
    | .ok .null =>
      if f.property.mandatory then .fail (.nullMandatory owner f.property.name) else pure none
    | .ok field => do
      let j ← (enc f.codec field).under (.field f.property.name)
      return some (f.property.name, j)

theorem encodeFields_cons_eq (f : FieldCodec) (fs : List FieldCodec) :
    encodeFields enc owner v (f :: fs) = (do
      let first ← encodeField enc owner v f
      let rest ← encodeFields enc owner v fs
      return first.toList ++ rest) := by
  rw [encodeFields, encodeField]
  cases f.property.serializable with
  | false => simp
  | true =>
    rcases f.property.accessor.get v with cause | field
    · rfl
    · cases field with
      | null =>
        cases f.property.mandatory with
        | false => simp
        | true => rfl
      | _ => simp

theorem encodeFields_eq_pure_iff {fs : List FieldCodec} {members : List (String × Json)} :
    encodeFields enc owner v fs = pure members ↔
      ∃ added, List.Forall₂ (fun f first => encodeField enc owner v f = pure first) fs added ∧
        added.reduceOption = members := by
  induction fs generalizing members with
  | nil =>
    constructor
    · intro h
      cases h
      exact ⟨[], .nil, rfl⟩
    · rintro ⟨_, ⟨⟩, rfl⟩
      rfl
  | cons f fs ih =>
    rw [encodeFields_cons_eq]
    constructor
    · intro h
      obtain ⟨first, hfirst, h⟩ := Encoding.exists_of_bind h
      obtain ⟨rest, hrest, h⟩ := Encoding.exists_of_bind h
      cases h
      obtain ⟨added, hadded, rfl⟩ := ih.1 hrest
      exact ⟨first :: added, .cons hfirst hadded, by cases first <;> rfl⟩
    · rintro ⟨_, hall, rfl⟩
      cases hall with
      | @cons _ first _ added hfirst hadded =>
        rw [hfirst, pure_bind, ih.2 ⟨added, hadded, rfl⟩, pure_bind]
        cases first <;> rfl

theorem encodeField_below (f : FieldCodec) (hn : ∀ ref v, Below (enc ref v) (enc' ref v)) :
    Below (encodeField enc owner v f) (encodeField enc' owner v f) := by
  unfold encodeField
  split
  · exact .refl _
  · split
    · exact .refl _
    · exact .refl _
    · exact ((hn _ _).under _).bind fun j => .refl _

theorem encodePart_below (ref : CodecRef) (step : Step) (v : Value)
    (hn : ∀ ref v, Below (enc ref v) (enc' ref v)) :
    Below (encodePart enc ref step v) (encodePart enc' ref step v) := by
  unfold encodePart
  split
  · exact .refl _
  · exact (hn _ _).under _

theorem encodeEntries_below (backed : Bool) (key value : CodecRef)
    (hn : ∀ ref v, Below (enc ref v) (enc' ref v)) (done : Members Json)
    (entries : List (Value × Value)) :
    Below (encodeEntries enc backed key value done entries)
      (encodeEntries enc' backed key value done entries) := by
  induction entries generalizing done with
  | nil => exact .refl _
  | cons entry entries ih =>
    have hkey : Below (encodeKey enc backed key entry.1) (encodeKey enc' backed key entry.1) := by
      unfold encodeKey
      split
      · exact .refl _
      · exact (hn _ _).bind fun j => .refl _
    refine hkey.bind fun label => (encodePart_below value _ entry.2 hn).bind fun j => ?_
    split
    · exact .refl _
    · exact ih _

theorem encodeWith_below (codec : Codec) (scope : Scope) (v : Value)
    (hn : ∀ ref v, Below (enc ref v) (enc' ref v)) :
    Below (codec.encodeWith enc scope v) (codec.encodeWith enc' scope v) := by
  cases codec with
  | atomic | enumeration | formatted | custom => exact .refl _
  | record owner constructor fields strict =>
    have hfields : Below (encodeFields enc owner v fields) (encodeFields enc' owner v fields) := by
      intro members hm
      obtain ⟨added, hadded, rfl⟩ := encodeFields_eq_pure_iff.1 hm
      exact encodeFields_eq_pure_iff.2
        ⟨added, hadded.imp fun f first => encodeField_below f hn first, rfl⟩
    exact hfields.bind fun members => .refl _
  | sequence container element =>
    cases v with
    | sequence _ items =>
      have hitems : Below (encodeItems enc element 0 items) (encodeItems enc' element 0 items) := by
        intro js hjs
        refine encodeItems_eq_pure_iff.2 ((encodeItems_eq_pure_iff.1 hjs).imp fun v j hpart => ?_)
        exact ⟨hpart.null, fun hne => hn _ _ _ (hpart.encoded hne)⟩
      exact hitems.bind fun js => .refl _
    | _ => exact .refl _
  | map owner key value =>
    cases v with
    | map entries =>
      exact (encodeEntries_below _ key value hn [] entries).bind fun members => .refl _
    | _ => exact .refl _
  | union owner branches =>
    simp only [encodeWith]
    split
    · exact .refl _
    · exact ((hn _ _).under _).bind fun j => .refl _

end Encode

end Codec

def FieldCodec.unnumbered (f : FieldCodec) : FieldCodec := ⟨f.property.unnumbered, f.codec⟩

theorem Members.ofList_perm {α : Type} {entries entries' : List (String × α)}
    (h : entries.Perm entries') (hn : (Members.names entries).Nodup) :
    Members.ofList entries = Members.ofList entries' := by
  have hn' : (Members.names entries').Nodup := (h.map Prod.fst).nodup_iff.1 hn
  refine (Members.sorted_ofList _).ext (Members.sorted_ofList _) fun name => Option.ext fun a => ?_
  rw [Members.get?_ofList hn, Members.get?_ofList hn', Members.get?_eq_some_iff hn,
    Members.get?_eq_some_iff hn', h.mem_iff]

namespace Codec

/-- Two codecs of a record that is built field by field, with the same fields in some order, or one
and the same codec. -/
inductive Reorders : Codec → Codec → Prop
  | refl (codec : Codec) : Reorders codec codec
  | record {owner : TypeTerm} {layout layout' : RecordLayout} {fs fs' : List FieldCodec}
      {strict : Bool} : layout.Reorders owner.head layout' → layout.check = .ok () →
      fs.map FieldCodec.property = layout.properties →
      fs'.map FieldCodec.property = layout'.properties →
      (fs.map FieldCodec.unnumbered).Perm (fs'.map FieldCodec.unnumbered) →
      Reorders (.record owner layout.constructor fs strict)
        (.record owner layout'.constructor fs' strict)

variable {codec codec' : Codec} {fs fs' : List FieldCodec} {scope : Scope} {v : Value} {j : Json}
  {owner : TypeTerm}

theorem Reorders.isStringBacked (h : codec.Reorders codec') :
    codec.isStringBacked = codec'.isStringBacked := by
  cases h <;> rfl

theorem encodeFields_perm {enc : CodecRef → Value → Encoding Json}
    {members : List (String × Json)}
    (hperm : (fs.map FieldCodec.unnumbered).Perm (fs'.map FieldCodec.unnumbered))
    (h : encodeFields enc owner v fs = pure members) :
    ∃ members', encodeFields enc owner v fs' = pure members' ∧ members.Perm members' := by
  obtain ⟨added, hadded, rfl⟩ := encodeFields_eq_pure_iff.1 h
  have hadded : List.Forall₂ (fun f first => encodeField enc owner v f = pure first)
      (fs.map FieldCodec.unnumbered) added := List.forall₂_map_left_iff.2 hadded
  obtain ⟨added', hadded', hperm'⟩ := List.perm_comp_forall₂ hperm.symm hadded
  exact ⟨_, encodeFields_eq_pure_iff.2 ⟨added', List.forall₂_map_left_iff.1 hadded', rfl⟩,
    hperm'.symm.filterMap _⟩

theorem Reorders.encodeWith {enc : CodecRef → Value → Encoding Json} (h : codec.Reorders codec')
    (he : codec.encodeWith enc scope v = pure j) : codec'.encodeWith enc scope v = pure j := by
  cases h with
  | refl => exact he
  | record hl hcheck hfs hfs' hperm =>
    obtain ⟨members, hmembers, he⟩ := Encoding.exists_of_bind he
    cases he
    obtain ⟨members', hmembers', hsame⟩ := encodeFields_perm hperm hmembers
    have hnames : (Members.names members).Nodup := by
      have hn := (RecordLayout.check_iff.1 hcheck).names
      rw [← hfs, List.map_map] at hn
      exact hn.sublist (fieldsEncode_of_encodeFields hmembers).names
    rw [Codec.encodeWith, hmembers', pure_bind, Members.ofList_perm hsame hnames]

/-- Which members make up an instance does not depend on the order of fields. -/
theorem Populates.perm {dec : CodecRef → Json → Decoding Value} {strict : Bool}
    {members : Members Json} {fields : Members Value}
    (hperm : (fs.map FieldCodec.unnumbered).Perm (fs'.map FieldCodec.unnumbered))
    (h : Populates dec fs strict members fields) : Populates dec fs' strict members fields := by
  have hall : ∀ P : FieldCodec → Prop, (∀ f ∈ fs, P f.unnumbered) →
      ∀ f ∈ fs', P f.unnumbered := by
    intro P hP f hf
    obtain ⟨g, hg, heq⟩ := List.mem_map.1 (hperm.mem_iff.2 (List.mem_map_of_mem hf))
    exact heq ▸ hP g hg
  have hany : ∀ P : FieldCodec → Prop, (∃ f ∈ fs, P f.unnumbered) →
      ∃ f ∈ fs', P f.unnumbered := by
    rintro P ⟨f, hf, hP⟩
    obtain ⟨g, hg, heq⟩ := List.mem_map.1 (hperm.mem_iff.1 (List.mem_map_of_mem hf))
    exact ⟨g, hg, heq ▸ hP⟩
  refine ⟨h.proper, fun hstrict name hname => ?_, ?_, ?_, fun name hne => ?_⟩
  · exact List.any_eq_true.2 (hany (fun f => (f.property.deserializable &&
      decide (f.property.name = name)) = true) (List.any_eq_true.1 (h.known hstrict name hname)))
  · exact hall (fun f => f.property.deserializable = true → f.property.mandatory = true →
      ∃ j, Members.get? f.property.name members = some j ∧ j.isNull = false) h.mandatory
  · exact hall (fun f => f.property.deserializable = true → ∀ j,
      Members.get? f.property.name members = some j → j.isNull = false →
        dec f.codec j = .ok (Fields.get f.property.name fields)) h.present
  · exact hany (fun f => f.property.name = name ∧ f.property.deserializable = true ∧
      ∃ j, Members.get? name members = some j ∧ j.isNull = false) (h.member name hne)

theorem Reorders.decodeWith {dec : CodecRef → Json → Decoding Value} (h : codec.Reorders codec')
    (hd : codec.decodeWith dec scope j = .ok v) : codec'.decodeWith dec scope j = .ok v := by
  cases h with
  | refl => exact hd
  | record hl hcheck hfs hfs' hperm =>
    cases j with
    | obj members =>
      have hn := (RecordLayout.check_iff.1 hcheck).names
      have hn' := (RecordLayout.check_iff.1 (hl.check_iff.1 hcheck)).names
      obtain ⟨fields, rfl, hpop⟩ := (hl.left.decodeRecord_eq_ok_iff hn hfs).1 hd
      exact (hl.right.decodeRecord_eq_ok_iff hn' hfs').2 ⟨fields, rfl, hpop.perm hperm⟩
    | _ => cases hd

end Codec

end Typewire
