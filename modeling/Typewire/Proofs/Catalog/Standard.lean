import Mathlib.Tactic.Common
import Typewire.Catalog.File
import Typewire.Proofs.Layout.Validity

/-! # Records from catalogue files

A record that is declared in a file is built field by field: each constructor slot has the name of
its property, and properties are read and set as fields. All definitions of a catalogue that comes
from files are of this kind or hold no host code.
-/

namespace Typewire

/-- The slots are the places of their properties in a list of names. -/
structure RecordLayout.Slotted (names : List String) (layout : RecordLayout) : Prop where
  name : ∀ p ∈ layout.properties, ∀ i, p.binding = .slot i → names[i]? = some p.name
  slot : ∀ i name, names[i]? = some name →
    ∃ p ∈ layout.properties, p.binding = .slot i ∧ p.name = name

/-- What decoding sets, by the constructor or by a setter, are fields of the names of properties. -/
structure RecordLayout.Assembled (type : TypeName) (layout : RecordLayout) : Prop where
  constructor : ∃ names, layout.constructor = .record type names ∧ layout.Slotted names
  set : ∀ p ∈ layout.properties, p.binding = .setter → p.accessor = .field p.name
  deserializable : ∀ p ∈ layout.properties, p.deserializable = p.binding.isWritable

/-- A record whose properties are fields of the same names, some of them set by the constructor. -/
structure RecordLayout.Standard (type : TypeName) (layout : RecordLayout) : Prop where
  constructor : ∃ names, layout.constructor = .record type names ∧ layout.Slotted names
  get : ∀ p ∈ layout.properties, p.accessor.get = Accessor.getField p.name
  set : ∀ p ∈ layout.properties, p.binding = .setter → p.accessor = .field p.name
  deserializable : ∀ p ∈ layout.properties, p.deserializable = p.binding.isWritable
  calculated : ∀ p ∈ layout.properties, p.binding ≠ .calculated

theorem RecordLayout.Standard.assembled {type : TypeName} {layout : RecordLayout}
    (h : layout.Standard type) : layout.Assembled type :=
  ⟨h.constructor, h.set, h.deserializable⟩

theorem RecordLayout.Standard.deserializable_iff {type : TypeName} {layout : RecordLayout}
    (h : layout.Standard type) {p : Property} (hp : p ∈ layout.properties) :
    p.deserializable = true ↔ p.binding ≠ .readOnly := by
  rw [h.deserializable p hp]
  cases hb : p.binding with
  | slot | setter => exact ⟨fun _ => Binding.noConfusion, fun _ => rfl⟩
  | readOnly => exact ⟨nofun, fun hne => absurd rfl hne⟩
  | calculated => exact absurd hb (h.calculated p hp)

namespace RecordDeclaration

variable {owner : TypeName} {params : List String} {slot : Nat} {d : PropertyDeclaration}
  {ds : List PropertyDeclaration} {props : List Property}

theorem properties?_cons (h : properties? owner params slot (d :: ds) = .ok props) :
    ∃ type rest, properties? owner params (if isSlot d then slot + 1 else slot) ds = .ok rest ∧
      props = { name := d.name, type, binding := binding slot d.binding,
                accessor := accessor d.name d.binding, mandatory := d.mandatory,
                serializable := !d.writeOnly } :: rest := by
  rw [properties?] at h
  obtain ⟨type, -, h⟩ := Except.exists_of_bind h
  obtain ⟨rest, hr, h⟩ := Except.exists_of_bind h
  cases h
  exact ⟨type, rest, hr, rfl⟩

theorem properties?_fields (h : properties? owner params slot ds = .ok props)
    (hd : ∀ d ∈ ds, ∀ compute, d.binding ≠ .calculated compute) :
    ∀ p ∈ props, p.accessor.get = Accessor.getField p.name ∧
      (p.binding = .setter → p.accessor = .field p.name) ∧
      p.deserializable = p.binding.isWritable ∧ p.binding ≠ .calculated := by
  induction ds generalizing slot props with
  | nil =>
    cases h
    exact fun p hp => by cases hp
  | cons d ds ih =>
    obtain ⟨type, rest, hr, rfl⟩ := properties?_cons h
    intro p hp
    rcases List.mem_cons.1 hp with rfl | hp
    · have hd := hd d List.mem_cons_self
      cases hb : d.binding with
      | calculated compute => exact absurd hb (hd compute)
      | _ => exact ⟨rfl, by simp [binding, accessor], rfl, by simp [binding]⟩
    · exact ih hr (fun d hd' => hd d (List.mem_cons_of_mem _ hd')) p hp

theorem properties?_slots (h : properties? owner params slot ds = .ok props) :
    (∀ p ∈ props, ∀ i, p.binding = .slot i → slot ≤ i ∧ (slotNames ds)[i - slot]? = some p.name) ∧
    ∀ i name, (slotNames ds)[i]? = some name →
      ∃ p ∈ props, p.binding = .slot (slot + i) ∧ p.name = name := by
  induction ds generalizing slot props with
  | nil =>
    cases h
    exact ⟨fun p hp => absurd hp List.not_mem_nil, fun i name hn => by cases hn⟩
  | cons d ds ih =>
    obtain ⟨type, rest, hr, rfl⟩ := properties?_cons h
    obtain ⟨hto, hof⟩ := ih hr
    by_cases hs : isSlot d = true
    · have hb : d.binding = .slot := by
        unfold isSlot at hs
        split at hs
        · assumption
        · cases hs
      have hnames : slotNames (d :: ds) = d.name :: slotNames ds := by
        simp [slotNames, hs]
      rw [if_pos hs] at hto hof
      rw [hnames]
      refine ⟨fun p hp i hi => ?_, fun i name hn => ?_⟩
      · rcases List.mem_cons.1 hp with rfl | hp
        · simp only [hb, binding, Binding.slot.injEq] at hi
          simp [hi]
        · obtain ⟨hle, hn⟩ := hto p hp i hi
          refine ⟨by omega, ?_⟩
          rw [show i - slot = (i - (slot + 1)) + 1 by omega, List.getElem?_cons_succ]
          exact hn
      · cases i with
        | zero =>
          cases hn
          exact ⟨_, List.mem_cons_self, by simp [hb, binding], rfl⟩
        | succ i =>
          obtain ⟨p, hp, hi, hname⟩ := hof i name hn
          refine ⟨p, List.mem_cons_of_mem _ hp, ?_, hname⟩
          rw [hi, show slot + 1 + i = slot + (i + 1) by omega]
    · have hnames : slotNames (d :: ds) = slotNames ds := by
        simp [slotNames, hs]
      rw [if_neg hs] at hto hof
      rw [hnames]
      refine ⟨fun p hp i hi => ?_, fun i name hn => ?_⟩
      · rcases List.mem_cons.1 hp with rfl | hp
        · unfold isSlot at hs
          cases hb : d.binding <;> simp_all [binding]
        · exact hto p hp i hi
      · obtain ⟨p, hp, hi, hname⟩ := hof i name hn
        exact ⟨p, List.mem_cons_of_mem _ hp, hi, hname⟩

theorem slotted_properties? (h : properties? owner params 0 ds = .ok props)
    (constructor : Constructor) :
    RecordLayout.Slotted (slotNames ds) { constructor, properties := props } := by
  obtain ⟨hto, hof⟩ := properties?_slots h
  refine ⟨fun p hp i hi => (hto p hp i hi).2, fun i name hn => ?_⟩
  obtain ⟨p, hp, hi, hname⟩ := hof i name hn
  exact ⟨p, hp, by rw [hi, Nat.zero_add], hname⟩

/-- Without a constructor of its own and without computed properties a record is standard. -/
theorem standard_define {r : RecordDeclaration} {def' : TypeDefinition} (h : r.define = .ok def')
    (hc : r.constructor? = none)
    (hd : ∀ d ∈ r.properties, ∀ compute, d.binding ≠ .calculated compute) :
    def'.name = r.name ∧ ∃ layout, def'.layout = .record layout ∧ layout.Standard r.name := by
  rw [define] at h
  obtain ⟨props, hp, h⟩ := Except.exists_of_bind h
  cases h
  refine ⟨rfl, _, rfl, ?_⟩
  have hfields := properties?_fields hp hd
  refine ⟨⟨slotNames r.properties, ?_, slotted_properties? hp _⟩,
    fun p hp => (hfields p hp).1, fun p hp => (hfields p hp).2.1,
    fun p hp => (hfields p hp).2.2.1, fun p hp => (hfields p hp).2.2.2⟩
  rw [hc, Option.getD_none]

end RecordDeclaration

namespace Catalog

variable {P : TypeName → TypeDefinition → Prop} {c c' : Catalog}

def Every (P : TypeName → TypeDefinition → Prop) (c : Catalog) : Prop :=
  ∀ type d, c.definition? type = some d → P type d

theorem every_initial (h : ∀ d ∈ builtins, P d.name d) : initial.Every P := by
  intro type d hd
  have hm : (type, d) ∈ builtins.map fun d => (d.name, d) := Table.mem_of_get? hd
  obtain ⟨d', hd', heq⟩ := List.mem_map.1 hm
  cases heq
  exact h _ hd'

theorem Every.define (h : c.Every P) {d : TypeDefinition} (hd : P d.name d)
    (hc : c.define d = .ok c') : c'.Every P := by
  rw [Catalog.define] at hc
  split at hc
  · cases hc
  · cases hc
    intro type def' hdef
    rw [definition?, Table.get?_insert] at hdef
    split at hdef
    · cases hdef
      subst_vars
      exact hd
    · exact h type def' hdef

theorem Every.declareSubtypes (h : c.Every P) (sub : TypeName) (sups : List TypeName) :
    (sups.foldl (fun c sup => c.declareSubtype sub sup) c).Every P := by
  induction sups generalizing c with
  | nil => exact h
  | cons sup sups ih => exact ih h

theorem Every.addEntries (h : c.Every P)
    (hP : ∀ (e : CatalogFile.Entry) d, e.define = .ok d → P d.name d)
    (es : List CatalogFile.Entry) : (CatalogFile.addEntries c es).2.Every P := by
  induction es generalizing c with
  | nil => exact h
  | cons e es ih =>
    rw [CatalogFile.addEntries]
    split
    · rename_i c' hc
      rw [CatalogFile.Entry.addTo] at hc
      obtain ⟨d, hd, hc⟩ := Except.exists_of_bind hc
      obtain ⟨c'', hc', hc⟩ := Except.exists_of_bind hc
      cases hc
      exact ih ((h.define (hP e d hd) hc').declareSubtypes e.name e.supertypes)
    · exact h

def Standard (c : Catalog) : Prop :=
  ∀ type d, c.definition? type = some d → d.name = type ∧
    ∀ layout, d.layout = .record layout → layout.Standard type

theorem standard_initial : initial.Standard := by
  refine every_initial fun d hd => ⟨rfl, fun layout hl => ?_⟩
  simp only [builtins, AtomicKind.all, List.mem_append, List.mem_map, List.mem_cons,
    List.not_mem_nil, or_false] at hd
  rcases hd with ⟨kind, -, rfl⟩ | rfl | rfl | rfl | rfl <;> cases hl

end Catalog

namespace CatalogFile

theorem standard_define {e : Entry} {d : TypeDefinition} (h : e.define = .ok d)
    {layout : RecordLayout} (hl : d.layout = .record layout) : layout.Standard d.name := by
  cases e with
  | record r =>
    rw [Entry.define, RecordEntry.define] at h
    split at h
    · cases h
    · obtain ⟨hname, l, hl', hs⟩ := RecordDeclaration.standard_define h rfl (by
        intro d hd compute
        obtain ⟨p, -, rfl⟩ := List.mem_map.1 hd
        cases hb : p.binding <;> simp [PropertyEntry.declaration, hb, BindingWord.declared])
      rw [hl'] at hl
      cases hl
      exact hname ▸ hs
  | enumeration e =>
    cases h
    cases hl
  | union u =>
    rw [Entry.define, UnionEntry.define, UnionDeclaration.define] at h
    obtain ⟨variants, -, h⟩ := Except.exists_of_bind h
    cases h
    cases hl

/-- What a file adds to the built-in types is standard, whether all of it is added or not. -/
theorem standard_registerInto (f : CatalogFile) : (f.registerInto .initial).2.Standard :=
  Catalog.Every.addEntries Catalog.standard_initial
    (fun _ _ h => ⟨rfl, fun _ hl => standard_define h hl⟩) f.entries

theorem standard_of_registerInto {f : CatalogFile} {r : Except CatalogError Unit} {c : Catalog}
    (h : f.registerInto .initial = (r, c)) : c.Standard := by
  have hm := f.standard_registerInto
  rwa [h] at hm

end CatalogFile

end Typewire
