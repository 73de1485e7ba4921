import Typewire.Members
import Typewire.Schema

/-! # References in fragments

Which entries of a dictionary a fragment stands for, at any depth.
-/

namespace Typewire.Schema

mutual

def refs : Schema → List String
  | ⟨reference?, _, _, properties?, _, items?, additional?, _, _, _⟩ =>
    reference?.toList ++ tableRefs properties? ++ partRefs items? ++ partRefs additional?

def partRefs : Option Schema → List String
  | none => []
  | some s => refs s

def tableRefs : Option (List (String × Schema)) → List String
  | none => []
  | some ps => memberRefs ps

def memberRefs : List (String × Schema) → List String
  | [] => []
  | (_, s) :: ps => refs s ++ memberRefs ps

end

theorem memberRefs_eq (ps : List (String × Schema)) :
    memberRefs ps = ps.flatMap fun p => refs p.2 := by
  induction ps with
  | nil => rw [memberRefs, List.flatMap_nil]
  | cons p ps ih => rw [memberRefs, List.flatMap_cons, ih]

@[simp] theorem refs_reference (path : String) : (reference path).refs = [path] := by
  simp [reference, refs, partRefs, tableRefs]

@[simp] theorem refs_ofType (type : SchemaType) : (ofType type).refs = [] := by
  simp [ofType, refs, partRefs, tableRefs]

@[simp] theorem refs_formatted (type : SchemaType) (format : String) :
    (formatted type format).refs = [] := by
  simp [formatted, refs, partRefs, tableRefs]

@[simp] theorem refs_enumeration (labels : List String) : (enumeration labels).refs = [] := by
  simp [enumeration, refs, partRefs, tableRefs]

@[simp] theorem refs_array (items : Schema) : (array items).refs = items.refs := by
  simp [array, refs, partRefs, tableRefs]

@[simp] theorem refs_map (values : Schema) : (map values).refs = values.refs := by
  simp [map, refs, partRefs, tableRefs]

@[simp] theorem refs_flags (s : Schema) (readOnly writeOnly : Bool) :
    { s with readOnly, writeOnly }.refs = s.refs := by
  cases s
  simp only [refs]

/-- An object refers to what its members refer to, where no name is repeated. -/
theorem mem_refs_object {ps : List (String × Schema)} (h : (ps.map Prod.fst).Nodup)
    {required : List String} {path : String} :
    path ∈ (object (Members.ofList ps) required).refs ↔ ∃ p ∈ ps, path ∈ p.2.refs := by
  simp [object, refs, partRefs, tableRefs, memberRefs_eq, Members.mem_ofList_iff h]

end Typewire.Schema
