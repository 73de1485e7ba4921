import Typewire.Proofs.Catalog.Standard
import Typewire.Proofs.Catalog.Subtype
import Typewire.Proofs.Registry.Reference

/-! # Well-typed values

When a value is one of a canonical term over a catalogue, which terms are reached from a term, and
what of a value comes back after it was encoded.
-/

namespace Typewire

/-- The values of a scalar type. Doubles are finite. -/
def AtomicKind.Admits : AtomicKind → Value → Prop
  | .string, .string _ => True
  | .int, .int _ => True
  | .long, .long _ => True
  | .double, .double x => x.isFinite = true
  | .bool, .bool _ => True
  | _, _ => False

def Layout.parts : Layout → List TypeScheme
  | .record layout => layout.properties.map Property.type
  | .sequence _ element => [element]
  | .map key value => [key, value]
  | .union layout => layout.variants.map Variant.target
  | _ => []

namespace Catalog

variable (c : Catalog) (s : Settings)

def layout? (term : TypeTerm) : Option Layout :=
  (c.definition? term.head).map TypeDefinition.layout

/-- The value is of the type. Items and values of map entries may be null instead. -/
inductive WellTyped : TypeTerm → Value → Prop
  | atomic {term : TypeTerm} {kind : AtomicKind} {v : Value} :
      c.layout? term = some (.atomic kind) → kind.Admits v → WellTyped term v
  | sequence {term part : TypeTerm} {container : Container} {element : TypeScheme}
      {items : List Value} : c.layout? term = some (.sequence container element) →
      s.part? term element = some part → (∀ v ∈ items, v ≠ .null → WellTyped part v) →
      WellTyped term (.sequence container items)
  | map {term keyPart valuePart : TypeTerm} {key value : TypeScheme}
      {entries : List (Value × Value)} : c.layout? term = some (.map key value) →
      s.part? term key = some keyPart → s.part? term value = some valuePart →
      (entries.map Prod.fst).Nodup → (∀ entry ∈ entries, WellTyped keyPart entry.1) →
      (∀ entry ∈ entries, entry.2 ≠ .null → WellTyped valuePart entry.2) →
      WellTyped term (.map entries)
  | enumeration {term : TypeTerm} {layout : EnumLayout} {m : EnumMember} :
      c.layout? term = some (.enumeration layout) → m ∈ layout.members →
      WellTyped term (.enum term.head m.ident)
  | record {term : TypeTerm} {layout : RecordLayout} {fields : List (String × Value)}
      (part : String → TypeTerm) : c.layout? term = some (.record layout) →
      Fields.Proper fields →
      (∀ entry ∈ fields, ∃ p ∈ layout.properties, p.name = entry.1 ∧
        s.part? term p.type = some (part entry.1)) →
      (∀ entry ∈ fields, WellTyped (part entry.1) entry.2) →
      (∀ p ∈ layout.properties, p.mandatory = true → p.name ∈ Members.names fields) →
      WellTyped term (.object term.head fields)
  | union {term part : TypeTerm} {layout : UnionLayout} {variant : Variant} {v : Value} :
      c.layout? term = some (.union layout) → variant ∈ layout.variants →
      s.part? term variant.target = some part → WellTyped part v → WellTyped term v

def Part (term part : TypeTerm) : Prop :=
  ∃ layout scheme, c.layout? term = some layout ∧ scheme ∈ layout.parts ∧
    s.part? term scheme = some part

/-- The second term is reached from the first by parts. -/
def Reachable : TypeTerm → TypeTerm → Prop := Relation.ReflTransGen (c.Part s)

section Part

variable {c s} {term part : TypeTerm}

theorem Part.item {container : Container} {element : TypeScheme}
    (hl : c.layout? term = some (.sequence container element))
    (hp : s.part? term element = some part) : c.Part s term part :=
  ⟨_, _, hl, List.mem_singleton_self _, hp⟩

theorem Part.key {key value : TypeScheme} (hl : c.layout? term = some (.map key value))
    (hp : s.part? term key = some part) : c.Part s term part :=
  ⟨_, _, hl, List.mem_cons_self, hp⟩

theorem Part.entry {key value : TypeScheme} (hl : c.layout? term = some (.map key value))
    (hp : s.part? term value = some part) : c.Part s term part :=
  ⟨_, _, hl, List.mem_cons_of_mem _ (List.mem_singleton_self _), hp⟩

theorem Part.field {layout : RecordLayout} {p : Property}
    (hl : c.layout? term = some (.record layout)) (hp : p ∈ layout.properties)
    (hpart : s.part? term p.type = some part) : c.Part s term part :=
  ⟨_, _, hl, List.mem_map_of_mem hp, hpart⟩

theorem Part.variant {layout : UnionLayout} {v : Variant}
    (hl : c.layout? term = some (.union layout)) (hv : v ∈ layout.variants)
    (hp : s.part? term v.target = some part) : c.Part s term part :=
  ⟨_, _, hl, List.mem_map_of_mem hv, hp⟩

end Part

/-- The layout of a term loses nothing but fields that only go one way. -/
structure Reversible (term : TypeTerm) : Prop where
  /-- Keys of maps are strings or enum members. -/
  keys : ∀ key value part, c.layout? term = some (.map key value) →
    s.part? term key = some part → c.layout? part = some (.atomic .string) ∨
      ∃ layout, c.layout? part = some (.enumeration layout)
  /-- Variants of unions are records or enums. -/
  targets : ∀ layout, c.layout? term = some (.union layout) → ∀ v ∈ layout.variants,
    ∀ part, s.part? term v.target = some part →
      (∃ layout, c.layout? part = some (.record layout)) ∨
        ∃ layout, c.layout? part = some (.enumeration layout)
  /-- No variant is the type of an earlier variant or a subtype of it. -/
  order : ∀ layout, c.layout? term = some (.union layout) →
    layout.variants.Pairwise fun v w => ∀ earlier later,
      s.part? term v.target = some earlier → s.part? term w.target = some later →
        ¬ Leads c.supertypes later.head earlier.head
  /-- What is only written is not mandatory. -/
  writeOnly : ∀ layout, c.layout? term = some (.record layout) → ∀ p ∈ layout.properties,
    p.serializable = false → p.mandatory = false
  /-- Members that are only read are not refused. -/
  readOnly : ∀ layout, c.layout? term = some (.record layout) →
    s.denyUnknownFields = false ∨ ∀ p ∈ layout.properties, p.binding ≠ .readOnly

/-- Whether a field of a record is both encoded and decoded. -/
def keeps (type name : TypeName) : Bool :=
  match c.definition? type with
  | some { layout := .record layout, .. } =>
    layout.properties.any fun p => p.name = name && p.serializable && p.deserializable
  | _ => false

def label : Value → String
  | .string text => text
  | .enum type ident =>
    match c.definition? type with
    | some { layout := .enumeration layout, .. } =>
      ((layout.member? ident).map EnumMember.label).getD ""
    | _ => ""
  | _ => ""

mutual

/-- The value with the fields that go both ways, and with map entries in the order of their
labels. -/
def trim : Value → Value
  | .sequence container items => .sequence container (trimItems items)
  | .map entries => .map ((Members.ofList (trimEntries entries)).map Prod.snd)
  | .object type fields => .object type (trimFields (c.keeps type) fields)
  | v => v

def trimItems : List Value → List Value
  | [] => []
  | v :: vs => trim v :: trimItems vs

def trimEntries : List (Value × Value) → List (String × Value × Value)
  | [] => []
  | (k, v) :: entries => (c.label k, k, trim v) :: trimEntries entries

def trimFields (keep : String → Bool) : List (String × Value) → List (String × Value)
  | [] => []
  | (name, v) :: fields =>
    if keep name then (name, trim v) :: trimFields keep fields else trimFields keep fields

end

@[simp] theorem trim_null : c.trim .null = .null := by simp [trim]

theorem trimItems_eq (vs : List Value) : c.trimItems vs = vs.map c.trim := by
  induction vs with
  | nil => rw [trimItems, List.map_nil]
  | cons v vs ih => rw [trimItems, List.map_cons, ih]

theorem trimEntries_eq (entries : List (Value × Value)) :
    c.trimEntries entries = entries.map fun e => (c.label e.1, e.1, c.trim e.2) := by
  induction entries with
  | nil => rw [trimEntries, List.map_nil]
  | cons e entries ih => rw [trimEntries, List.map_cons, ih]

theorem trimFields_eq (keep : String → Bool) (fields : List (String × Value)) :
    c.trimFields keep fields =
      (fields.filter fun e => keep e.1).map fun e => (e.1, c.trim e.2) := by
  induction fields with
  | nil => rw [trimFields, List.filter_nil, List.map_nil]
  | cons e fields ih =>
    rw [trimFields, List.filter_cons]
    split
    · rw [List.map_cons, ih]
    · exact ih

theorem trim_ne_null {v : Value} (h : v ≠ .null) : c.trim v ≠ .null := by
  cases v <;> simp_all [trim]

theorem proper_trimFields {fields : Members Value} (h : Fields.Proper fields)
    (keep : String → Bool) : Fields.Proper (c.trimFields keep fields) := by
  rw [trimFields_eq]
  constructor
  · have hsub : List.Sublist ((fields.filter fun e => keep e.1).map Prod.fst)
        (fields.map Prod.fst) := List.filter_sublist.map _
    simpa [Members.Sorted, Members.names, Function.comp_def] using h.sorted.sublist hsub
  · intro entry he
    obtain ⟨e, hm, rfl⟩ := List.mem_map.1 he
    exact c.trim_ne_null (h.ne_null e (List.mem_filter.1 hm).1)

theorem get_trimFields (keep : String → Bool) (fields : Members Value) (name : String) :
    Fields.get name (c.trimFields keep fields) =
      if keep name then c.trim (Fields.get name fields) else .null := by
  induction fields with
  | nil => simp [trimFields, Fields.get, Members.get?_nil]
  | cons e fields ih =>
    obtain ⟨n, v⟩ := e
    rw [trimFields]
    by_cases hk : keep n = true
    · rw [if_pos hk, Fields.get, Fields.get, Members.get?_cons, Members.get?_cons]
      by_cases hn : name = n
      · rw [if_pos hn, if_pos hn, hn, if_pos hk]
        rfl
      · rw [if_neg hn, if_neg hn]
        exact ih
    · rw [if_neg hk, ih, Fields.get, Fields.get, Members.get?_cons]
      by_cases hn : name = n
      · rw [hn, if_neg hk, if_neg hk]
      · rw [if_neg hn]

theorem keeps_iff {term : TypeTerm} {layout : RecordLayout} {name : String}
    (hl : c.layout? term = some (.record layout)) : c.keeps term.head name = true ↔
      ∃ p ∈ layout.properties, p.name = name ∧ p.serializable = true ∧
        p.deserializable = true := by
  obtain ⟨⟨_, _, l⟩, hdef, rfl⟩ := Option.map_eq_some_iff.1 hl
  rw [keeps, hdef]
  simp [and_assoc]

variable {c} in
theorem Standard.record (hm : c.Standard) {term : TypeTerm} {layout : RecordLayout}
    (hl : c.layout? term = some (.record layout)) : layout.Standard term.head := by
  obtain ⟨d, hd, hlayout⟩ := Option.map_eq_some_iff.1 hl
  exact (hm _ d hd).2 layout hlayout

end Catalog

end Typewire
