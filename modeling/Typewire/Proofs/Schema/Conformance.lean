import Mathlib.Tactic.Common
import Typewire.Schema.Dictionary

/-! # Documents against schemas

When a document conforms to a fragment, where references are resolved by a dictionary. Documents are
either written by codecs or given to them, and properties that only go the other way are then not
asked for.
-/

namespace Typewire

inductive Sense where
  | output
  | input
  deriving DecidableEq, Repr

namespace Sense

def heeds : Sense → Schema → Bool
  | output, _ => true
  | input, s => !s.readOnly

/-- Whether the member of a property has to be there if it is required. -/
def demands : Sense → Schema → Bool
  | output, s => !s.writeOnly
  | input, s => !s.readOnly

end Sense

/-- The kind of a document matches. A double without a fraction is an integer. -/
def SchemaType.admits : SchemaType → Json → Bool
  | string, .str _ => true
  | integer, .int _ => true
  | integer, .real x => x.toInt?.isSome
  | number, .int _ => true
  | number, .real _ => true
  | boolean, .bool _ => true
  | object, .obj _ => true
  | array, .arr _ => true
  | _, _ => false

namespace Schema

def admits (s : Schema) (j : Json) : Bool := s.type?.all fun type => type.admits j

def property? (s : Schema) (name : String) : Option Schema :=
  s.properties?.bind (Members.get? name)

/-- Every required member is there, or is not demanded. -/
def fulfilled (sense : Sense) (s : Schema) (members : List (String × Json)) : Bool :=
  s.required.all fun name =>
    Members.has name members || (s.property? name).any fun p => !sense.demands p

end Schema

namespace Dictionary

def target? (d : Dictionary) (path : String) : Option Schema :=
  (d.entries.find? fun entry => d.refPrefix ++ entry.1 = path).bind Prod.snd

/-- The fragment, or the entry that it stands for, passes a check. An entry is no reference. -/
def meets (d : Dictionary) (s : Schema) (check : Schema → Bool) : Bool :=
  match s.reference? with
  | none => check s
  | some path => (d.target? path).any fun t => !t.isReference && check t

variable (d : Dictionary) (sense : Sense)

mutual

def conforms : Json → Schema → Bool
  | .str text, s => d.meets s fun t =>
    t.admits (.str text) && t.labels?.all fun labels => labels.contains text
  | .arr items, s => d.meets s fun t =>
    t.admits (.arr items) && t.items?.all fun part => conformsItems items part
  | .obj members, s => d.meets s fun t =>
    t.admits (.obj members) && conformsMembers members t && t.fulfilled sense members
  | j, s => d.meets s fun t => t.admits j

def conformsItems : List Json → Schema → Bool
  | [], _ => true
  | j :: js, part => conforms j part && conformsItems js part

def conformsMembers : List (String × Json) → Schema → Bool
  | [], _ => true
  | (name, j) :: ms, t =>
    ((t.property? name).all fun p => !sense.heeds p || conforms j p) &&
      (t.additional?.all fun part => conforms j part) && conformsMembers ms t

end

variable {d sense} {j : Json} {s : Schema} {name : String}

theorem conformsItems_iff {items : List Json} :
    d.conformsItems sense items s = true ↔ ∀ j ∈ items, d.conforms sense j s = true := by
  induction items with
  | nil => simp [conformsItems]
  | cons j items ih => simp [conformsItems, ih]

theorem conformsMembers_iff {members : List (String × Json)} :
    d.conformsMembers sense members s = true ↔ ∀ e ∈ members,
      (∀ p, s.property? e.1 = some p → sense.heeds p = true → d.conforms sense e.2 p = true) ∧
        ∀ part, s.additional? = some part → d.conforms sense e.2 part = true := by
  induction members with
  | nil => simp [conformsMembers]
  | cons e members ih =>
    obtain ⟨name, j⟩ := e
    rw [conformsMembers, Bool.and_eq_true, Bool.and_eq_true, ih, List.forall_mem_cons,
      Option.all_eq_true, Option.all_eq_true]
    simp [imp_iff_not_or]

theorem conforms_array {items : List Json} :
    d.conforms sense (.arr items) (.array s) = true ↔ ∀ j ∈ items, d.conforms sense j s = true := by
  simp [conforms, meets, Schema.array, Schema.admits, SchemaType.admits, conformsItems_iff]

theorem conforms_map {members : List (String × Json)} :
    d.conforms sense (.obj members) (.map s) = true ↔
      ∀ e ∈ members, d.conforms sense e.2 s = true := by
  simp [conforms, meets, Schema.map, Schema.admits, SchemaType.admits, conformsMembers_iff,
    Schema.property?, Schema.fulfilled]

theorem conforms_object {members : List (String × Json)} {ps : Members Schema}
    {required : List String} :
    d.conforms sense (.obj members) (.object ps required) = true ↔
      (∀ e ∈ members, ∀ p, Members.get? e.1 ps = some p → sense.heeds p = true →
        d.conforms sense e.2 p = true) ∧
      ∀ name ∈ required, name ∈ Members.names members ∨
        ∃ p, Members.get? name ps = some p ∧ sense.demands p = false := by
  simp [conforms, meets, Schema.object, Schema.admits, SchemaType.admits, conformsMembers_iff,
    Schema.property?, Schema.fulfilled, Members.has_iff, Option.any_eq_true]

theorem conforms_enumeration {text : String} {labels : List String} :
    d.conforms sense (.str text) (.enumeration labels) = true ↔ text ∈ labels := by
  simp [conforms, meets, Schema.enumeration, Schema.admits, SchemaType.admits]

theorem conforms_formatted {text format : String} :
    d.conforms sense (.str text) (.formatted .string format) = true := by
  simp [conforms, meets, Schema.formatted, Schema.admits, SchemaType.admits]

theorem conforms_flags (readOnly writeOnly : Bool) :
    d.conforms sense j { s with readOnly, writeOnly } = d.conforms sense j s := by
  have hmeets : ∀ check : Schema → Bool, check { s with readOnly, writeOnly } = check s →
      d.meets { s with readOnly, writeOnly } check = d.meets s check := by
    intro check h
    rw [meets, h, meets]
  have hmembers : ∀ members, d.conformsMembers sense members { s with readOnly, writeOnly } =
      d.conformsMembers sense members s := by
    intro members
    induction members with
    | nil => simp only [conformsMembers]
    | cons e members ih =>
      simp only [conformsMembers, ih]
      rfl
  cases j with
  | obj members =>
    simp only [conforms]
    refine hmeets _ ?_
    simp only [hmembers]
    rfl
  | _ =>
    simp only [conforms]
    exact hmeets _ rfl

theorem target?_of_get? (h : Members.get? name d.entries = some (some s)) :
    d.target? (d.refPrefix ++ name) = some s := by
  have hfind : (d.entries.find? fun entry => d.refPrefix ++ entry.1 = d.refPrefix ++ name) =
      some (name, some s) := by
    simp only [String.append_right_inj]
    generalize d.entries = entries at h
    induction entries with
    | nil => cases h
    | cons e entries ih =>
      obtain ⟨n, a⟩ := e
      rw [Members.get?_cons] at h
      split at h
      · rename_i hn
        cases h
        rw [hn, List.find?_cons_of_pos (by simp)]
      · rename_i hn
        rw [List.find?_cons_of_neg (by simpa using Ne.symm hn)]
        exact ih h
  rw [target?, hfind]
  rfl

theorem conforms_reference (h : Members.get? name d.entries = some (some s))
    (hs : s.isReference = false) :
    d.conforms sense j (d.reference name) = d.conforms sense j s := by
  have hnone : s.reference? = none := by simpa [Schema.isReference] using hs
  have hmeets : ∀ check, d.meets (d.reference name) check = d.meets s check := by
    intro check
    simp [meets, reference, Schema.reference, target?_of_get? h, hs, hnone]
  cases j <;> simp only [conforms, hmeets]

end Dictionary

end Typewire
