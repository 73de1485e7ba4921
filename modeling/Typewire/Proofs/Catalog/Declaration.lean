import Typewire.Proofs.Catalog.Standard
import Typewire.Proofs.Codec.Inversion

/-! # Records as they are declared

Each property of a record is as its declaration says, and the slots are numbered so that they are
the parameters of the constructor. So a declared record is valid unless a property has the name of
another, or can neither be read nor be written.
-/

namespace Typewire

theorem Catalog.readType_eq_ok_iff {owner : TypeName} {params : List String} {text : String}
    {scheme : TypeScheme} :
    Catalog.readType owner params text = .ok scheme ↔ TypeScheme.read params text = .ok scheme := by
  rw [Catalog.readType]
  cases TypeScheme.read params text with
  | error e => exact ⟨nofun, nofun⟩
  | ok s =>
    constructor
    · rintro ⟨⟩
      rfl
    · rintro ⟨⟩
      rfl

structure PropertyDeclaration.Gives (params : List String) (d : PropertyDeclaration)
    (p : Property) : Prop where
  name : p.name = d.name
  type : TypeScheme.read params d.type = .ok p.type
  binding : ∃ slot, p.binding = RecordDeclaration.binding slot d.binding
  accessor : p.accessor = RecordDeclaration.accessor d.name d.binding
  mandatory : p.mandatory = d.mandatory
  serializable : p.serializable = !d.writeOnly
  deserializable : p.deserializable = p.binding.isWritable

/-- Whether decoding sets the property, by the constructor or by a setter. -/
def DeclaredBinding.isWritable : DeclaredBinding → Bool
  | slot => true
  | setter => true
  | readOnly => false
  | calculated _ => false

theorem PropertyDeclaration.Gives.isWritable {params : List String} {d : PropertyDeclaration}
    {p : Property} (h : d.Gives params p) : p.binding.isWritable = d.binding.isWritable := by
  obtain ⟨slot, hb⟩ := h.binding
  rw [hb]
  cases d.binding <;> rfl

theorem PropertyDeclaration.Gives.able_iff {params : List String} {d : PropertyDeclaration}
    {p : Property} (h : d.Gives params p) :
    ((p.deserializable = true → p.binding.isWritable = true) ∧
      (p.serializable = true ∨ p.deserializable = true)) ↔
        (d.writeOnly = true → d.binding.isWritable = true) := by
  rw [h.deserializable, h.serializable, h.isWritable]
  cases d.writeOnly <;> simp

namespace RecordDeclaration

variable {owner : TypeName} {params : List String} {slot : Nat} {ds : List PropertyDeclaration}
  {props : List Property} {r : RecordDeclaration} {def' : TypeDefinition} {layout : RecordLayout}

theorem forall₂_properties? (h : properties? owner params slot ds = .ok props) :
    List.Forall₂ (PropertyDeclaration.Gives params) ds props := by
  induction ds generalizing slot props with
  | nil =>
    cases h
    exact .nil
  | cons d ds ih =>
    rw [properties?] at h
    obtain ⟨type, htype, h⟩ := Except.exists_of_bind h
    obtain ⟨rest, hrest, h⟩ := Except.exists_of_bind h
    cases h
    exact .cons ⟨rfl, Catalog.readType_eq_ok_iff.1 htype, ⟨slot, rfl⟩, rfl, rfl, rfl, rfl⟩
      (ih hrest)

theorem exists_properties?_iff (slot : Nat) :
    (∃ props, properties? owner params slot ds = .ok props) ↔
      ∀ d ∈ ds, ∃ scheme, TypeScheme.read params d.type = .ok scheme := by
  constructor
  · rintro ⟨props, h⟩ d hd
    obtain ⟨p, -, hp⟩ := exists_right_of_forall₂ (forall₂_properties? h) hd
    exact ⟨p.type, hp.type⟩
  · intro h
    induction ds generalizing slot with
    | nil => exact ⟨[], rfl⟩
    | cons d ds ih =>
      obtain ⟨⟨scheme, hscheme⟩, h⟩ := List.forall_mem_cons.1 h
      obtain ⟨rest, hrest⟩ := ih (if isSlot d then slot + 1 else slot) h
      rw [properties?, Catalog.readType_eq_ok_iff.2 hscheme, Except.ok_bind, hrest]
      exact ⟨_, rfl⟩

theorem exists_define_iff : (∃ def', r.define = .ok def') ↔
    ∀ d ∈ r.properties, ∃ scheme, TypeScheme.read r.params d.type = .ok scheme := by
  rw [define, Except.exists_bind_pure_iff, exists_properties?_iff]

theorem filterMap_slot?_properties? (h : properties? owner params slot ds = .ok props) :
    (props.filterMap fun p => p.binding.slot?) = List.range' slot (slotNames ds).length := by
  induction ds generalizing slot props with
  | nil =>
    cases h
    rfl
  | cons d ds ih =>
    obtain ⟨type, rest, hr, rfl⟩ := properties?_cons h
    rw [List.filterMap_cons, ih hr]
    cases hb : d.binding <;> simp [isSlot, binding, Binding.slot?, hb, slotNames, List.range'_succ]

theorem exists_layout_define (h : r.define = .ok def') :
    def'.name = r.name ∧ ∃ layout, def'.layout = .record layout := by
  obtain ⟨props, -, h⟩ := Except.exists_of_bind h
  cases h
  exact ⟨rfl, _, rfl⟩

section Define

variable (h : r.define = .ok def') (hl : def'.layout = .record layout)

include h hl

theorem forall₂_define :
    List.Forall₂ (PropertyDeclaration.Gives r.params) r.properties layout.properties := by
  obtain ⟨props, hp, h⟩ := Except.exists_of_bind h
  cases h
  cases hl
  exact forall₂_properties? hp

theorem map_name_define :
    layout.properties.map Property.name = r.properties.map PropertyDeclaration.name := by
  rw [← List.forall₂_eq_eq_eq, List.forall₂_map_left_iff, List.forall₂_map_right_iff]
  exact (forall₂_define h hl).flip.imp fun p d hd => hd.name

theorem able_define_iff : (∀ p ∈ layout.properties,
    (p.deserializable = true → p.binding.isWritable = true) ∧
      (p.serializable = true ∨ p.deserializable = true)) ↔
    ∀ d ∈ r.properties, d.writeOnly = true → d.binding.isWritable = true := by
  have hgives := forall₂_define h hl
  constructor
  · intro hable d hd
    obtain ⟨p, hp, hgive⟩ := exists_right_of_forall₂ hgives hd
    exact hgive.able_iff.1 (hable p hp)
  · intro hable p hp
    obtain ⟨d, hd, hgive⟩ := exists_left_of_forall₂ hgives hp
    exact hgive.able_iff.2 (hable d hd)

variable (hc : r.constructor? = none)

include hc

theorem assembled_define : layout.Assembled r.name := by
  have hgives := forall₂_define h hl
  obtain ⟨props, hp, h⟩ := Except.exists_of_bind h
  cases h
  cases hl
  refine ⟨⟨slotNames r.properties, by rw [hc, Option.getD_none], slotted_properties? hp _⟩,
    fun p hp hb => ?_, fun p hp => ?_⟩
  · obtain ⟨d, -, hd⟩ := exists_left_of_forall₂ hgives hp
    obtain ⟨slot, hslot⟩ := hd.binding
    rw [hd.accessor, hd.name]
    cases hb' : d.binding with
    | setter => rfl
    | slot | readOnly | calculated => simp [hb', hb, binding] at hslot
  · obtain ⟨d, -, hd⟩ := exists_left_of_forall₂ hgives hp
    exact hd.deserializable

theorem valid_define (hn : (r.properties.map PropertyDeclaration.name).Nodup)
    (ha : ∀ d ∈ r.properties, d.writeOnly = true → d.binding.isWritable = true) :
    layout.Valid := by
  have hnames := map_name_define h hl
  have hable := (able_define_iff h hl).2 ha
  obtain ⟨props, hp, h⟩ := Except.exists_of_bind h
  cases h
  cases hl
  have hslots := filterMap_slot?_properties? hp
  refine ⟨hnames ▸ hn, hable, ?_, fun index => ?_⟩
  · rw [RecordLayout.map_fst_slots, hslots]
    exact List.nodup_range'
  · rw [RecordLayout.map_fst_slots, hslots, hc]
    simp [Constructor.record]

/-- The check accepts a record just when its properties have names of their own and none of them
can neither be read nor be written. -/
theorem check_define_iff : layout.check = .ok () ↔
    (r.properties.map PropertyDeclaration.name).Nodup ∧
      ∀ d ∈ r.properties, d.writeOnly = true → d.binding.isWritable = true := by
  rw [RecordLayout.check_iff]
  constructor
  · intro hvalid
    exact ⟨map_name_define h hl ▸ hvalid.names, (able_define_iff h hl).1 hvalid.able⟩
  · rintro ⟨hn, ha⟩
    exact valid_define h hl hc hn ha

theorem check_define_cases
    (ha : ∀ d ∈ r.properties, d.writeOnly = true → d.binding.isWritable = true) :
    layout.check = .ok () ∨ ∃ name, layout.check = .error (.duplicateProperty name) ∧
      List.Duplicate name (layout.properties.map Property.name) :=
  RecordLayout.check_cases
    (fun hn => valid_define h hl hc (map_name_define h hl ▸ hn) ha)
    ((able_define_iff h hl).2 ha)

end Define

end RecordDeclaration

theorem UnionDeclaration.exists_define_iff {u : UnionDeclaration} : (∃ d, u.define = .ok d) ↔
    ∀ v ∈ u.variants, ∃ scheme, TypeScheme.read u.params v.2 = .ok scheme := by
  rw [define, Except.exists_bind_pure_iff, Except.exists_mapM_iff]
  simp only [Except.exists_bind_pure_iff, Catalog.readType_eq_ok_iff]

namespace CatalogFile

theorem PropertyEntry.isContradictory_eq_false_iff {p : PropertyEntry} :
    p.isContradictory = false ↔
      (p.declaration.writeOnly = true → p.declaration.binding.isWritable = true) := by
  cases hb : p.binding <;> cases hw : p.writeOnly <;>
    simp [isContradictory, declaration, BindingWord.declared, DeclaredBinding.isWritable, hb, hw]

def RecordEntry.declaration (r : RecordEntry) : RecordDeclaration where
  name := r.name
  params := r.params
  properties := r.properties.map PropertyEntry.declaration

theorem RecordEntry.define_eq_ok_iff {r : RecordEntry} {d : TypeDefinition} :
    r.define = .ok d ↔ (∀ p ∈ r.properties, p.isContradictory = false) ∧
      r.declaration.define = .ok d := by
  rw [define]
  cases hfind : r.properties.find? PropertyEntry.isContradictory with
  | some p =>
    have hfound := List.find?_some hfind
    constructor
    · intro h
      cases h
    · rintro ⟨hable, -⟩
      rw [hable p (List.mem_of_find?_eq_some hfind)] at hfound
      cases hfound
  | none =>
    rw [List.find?_eq_none] at hfind
    exact ⟨fun h => ⟨fun p hp => Bool.eq_false_iff.2 (hfind p hp), h⟩, fun h => h.2⟩

/-- In a record from a file the check finds nothing but a repeated name. -/
theorem check_define_cases {e : Entry} {d : TypeDefinition} {layout : RecordLayout}
    (h : e.define = .ok d) (hl : d.layout = .record layout) :
    layout.check = .ok () ∨ ∃ name, layout.check = .error (.duplicateProperty name) ∧
      List.Duplicate name (layout.properties.map Property.name) := by
  cases e with
  | record r =>
    obtain ⟨hable, h⟩ := RecordEntry.define_eq_ok_iff.1 h
    refine RecordDeclaration.check_define_cases h hl rfl fun d hd => ?_
    obtain ⟨p, hp, rfl⟩ := List.mem_map.1 hd
    exact PropertyEntry.isContradictory_eq_false_iff.1 (hable p hp)
  | enumeration e =>
    cases h
    cases hl
  | union u =>
    obtain ⟨variants, -, h⟩ := Except.exists_of_bind h
    cases h
    cases hl

theorem check_registerInto_cases (f : CatalogFile) (c : Catalog) :
    (f.registerInto c).2.Every fun type d => c.definition? type = some d ∨
      ∀ layout, d.layout = .record layout →
        layout.check = .ok () ∨ ∃ name, layout.check = .error (.duplicateProperty name) ∧
          List.Duplicate name (layout.properties.map Property.name) :=
  Catalog.Every.addEntries (fun _ _ h => .inl h)
    (fun _ _ h => .inr fun _ hl => check_define_cases h hl) f.entries

end CatalogFile

end Typewire
