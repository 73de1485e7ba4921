import Mathlib.Data.List.Duplicate
import Mathlib.Data.List.Nodup
import Mathlib.Tactic.Common
import Typewire.Layout.Validity
import Typewire.Proofs.Except

/-! # What the checks of layouts ask for

The checks on layouts go through lists with what they have seen so far. Here is what they accept,
said without an order.
-/

namespace Typewire

namespace RecordLayout

/-- Names are distinct, each property can do what it is meant for, and the constructor slots are
bound once each. -/
structure Valid (layout : RecordLayout) : Prop where
  names : (layout.properties.map Property.name).Nodup
  able : ∀ p ∈ layout.properties,
    (p.deserializable = true → p.binding.isWritable = true) ∧
      (p.serializable = true ∨ p.deserializable = true)
  slots : (layout.slots.map Prod.fst).Nodup
  arity : ∀ index, index ∈ layout.slots.map Prod.fst ↔ index < layout.constructor.arity

theorem checkProperties_iff {seen : List String} {ps : List Property} :
    checkProperties seen ps = .ok () ↔
      (ps.map Property.name).Nodup ∧ (∀ p ∈ ps, p.name ∉ seen) ∧
        ∀ p ∈ ps, (p.deserializable = true → p.binding.isWritable = true) ∧
          (p.serializable = true ∨ p.deserializable = true) := by
  induction ps generalizing seen with
  | nil => simp [checkProperties]
  | cons p ps ih =>
    have hnew : (∀ q ∈ ps, q.name ∉ p.name :: seen) ↔
        p.name ∉ ps.map Property.name ∧ ∀ q ∈ ps, q.name ∉ seen := by
      simp only [List.mem_cons, List.mem_map, not_or, not_exists, not_and]
      exact ⟨fun h => ⟨fun q hq he => (h q hq).1 he, fun q hq => (h q hq).2⟩,
        fun h q hq => ⟨fun he => h.1 q hq he, h.2 q hq⟩⟩
    rw [checkProperties, List.map_cons, List.nodup_cons, List.forall_mem_cons,
      List.forall_mem_cons]
    by_cases hseen : p.name ∈ seen
    · simp [hseen]
    · rw [if_neg (by simpa using hseen)]
      split
      · simp_all
      · split
        · simp_all
        · rw [ih, hnew]
          have hable : (p.deserializable = true → p.binding.isWritable = true) ∧
              (p.serializable = true ∨ p.deserializable = true) := by
            cases hs : p.serializable <;> simp_all
          tauto

theorem checkProperties_cases (seen : List String) {ps : List Property}
    (hable : ∀ p ∈ ps, (p.deserializable = true → p.binding.isWritable = true) ∧
      (p.serializable = true ∨ p.deserializable = true)) :
    checkProperties seen ps = .ok () ∨
      ∃ name, checkProperties seen ps = .error (.duplicateProperty name) ∧
        (name ∈ seen ∧ name ∈ ps.map Property.name ∨
          List.Duplicate name (ps.map Property.name)) := by
  induction ps generalizing seen with
  | nil => exact .inl rfl
  | cons p ps ih =>
    obtain ⟨⟨hwritable, hused⟩, hable⟩ := List.forall_mem_cons.1 hable
    have hread : (p.deserializable && !p.binding.isWritable) = false := by
      cases hd : p.deserializable with
      | false => rfl
      | true => rw [hwritable hd]; rfl
    have hunused : (!p.serializable && !p.deserializable) = false := by
      rcases hused with h | h <;> simp [h]
    rw [checkProperties, hread, hunused, List.map_cons]
    by_cases hseen : p.name ∈ seen
    · rw [if_pos (List.contains_iff_mem.2 hseen)]
      exact .inr ⟨p.name, rfl, .inl ⟨hseen, List.mem_cons_self⟩⟩
    · rw [if_neg (fun h => hseen (List.contains_iff_mem.1 h))]
      refine (ih (p.name :: seen) hable).imp id fun ⟨name, hfault, htwice⟩ => ?_
      refine ⟨name, hfault, ?_⟩
      rcases htwice with ⟨hname, hlater⟩ | htwice
      · rcases List.mem_cons.1 hname with rfl | hname
        · exact .inr (List.Mem.duplicate_cons_self hlater)
        · exact .inl ⟨hname, List.mem_cons_of_mem _ hlater⟩
      · exact .inr (htwice.duplicate_cons _)

theorem checkSlots_iff {arity : Nat} {seen all : List Nat} {slots : List (Nat × Property)} :
    checkSlots arity seen slots = .ok all ↔
      all = (slots.map Prod.fst).reverse ++ seen ∧ (slots.map Prod.fst).Nodup ∧
        ∀ index ∈ slots.map Prod.fst, index < arity ∧ index ∉ seen := by
  induction slots generalizing seen with
  | nil => simp [checkSlots, eq_comm]
  | cons entry slots ih =>
    obtain ⟨index, p⟩ := entry
    have hnew : (∀ i ∈ slots.map Prod.fst, i < arity ∧ i ∉ index :: seen) ↔
        index ∉ slots.map Prod.fst ∧ ∀ i ∈ slots.map Prod.fst, i < arity ∧ i ∉ seen := by
      simp only [List.mem_cons, not_or]
      exact ⟨fun h => ⟨fun hm => (h index hm).2.1 rfl, fun i hi => ⟨(h i hi).1, (h i hi).2.2⟩⟩,
        fun h i hi => ⟨(h.2 i hi).1, fun he => h.1 (he ▸ hi), (h.2 i hi).2⟩⟩
    rw [checkSlots, List.map_cons, List.nodup_cons, List.forall_mem_cons, List.reverse_cons,
      List.append_assoc, List.singleton_append]
    by_cases hlt : index < arity
    · by_cases hseen : index ∈ seen
      · simp [hlt, hseen]
      · rw [if_pos hlt, if_neg (by simpa using hseen), ih, hnew]
        tauto
    · simp [hlt]

theorem check_iff {layout : RecordLayout} : layout.check = .ok () ↔ layout.Valid := by
  have hmissing : ∀ all : List Nat,
      ((List.range layout.constructor.arity).find? fun index => !all.contains index) = none ↔
        ∀ index < layout.constructor.arity, index ∈ all := by
    intro all
    simp [List.find?_eq_none]
  rw [check]
  constructor
  · intro h
    obtain ⟨⟨⟩, hp, h⟩ := Except.exists_of_bind h
    obtain ⟨all, hs, h⟩ := Except.exists_of_bind h
    obtain ⟨hnames, -, hable⟩ := checkProperties_iff.1 hp
    obtain ⟨rfl, hslots, harity⟩ := checkSlots_iff.1 hs
    split at h
    · cases h
    · rename_i hnone
      rw [hmissing] at hnone
      refine ⟨hnames, hable, hslots, fun index => ⟨fun hi => (harity index hi).1, fun hi => ?_⟩⟩
      simpa using hnone index hi
  · intro h
    have hp : checkProperties [] layout.properties = .ok () :=
      checkProperties_iff.2 ⟨h.names, by simp, h.able⟩
    have hs : checkSlots layout.constructor.arity [] layout.slots =
        .ok ((layout.slots.map Prod.fst).reverse ++ []) :=
      checkSlots_iff.2 ⟨rfl, h.slots, fun index hi => ⟨(h.arity index).1 hi, by simp⟩⟩
    have hnone := (hmissing ((layout.slots.map Prod.fst).reverse ++ [])).2 fun index hi => by
      simpa using (h.arity index).2 hi
    simp only [hp, hs, bind, Except.bind, hnone]

/-- If only the names may be wrong, only a repeated name is found. -/
theorem check_cases {layout : RecordLayout}
    (hvalid : (layout.properties.map Property.name).Nodup → layout.Valid)
    (hable : ∀ p ∈ layout.properties, (p.deserializable = true → p.binding.isWritable = true) ∧
      (p.serializable = true ∨ p.deserializable = true)) :
    layout.check = .ok () ∨ ∃ name, layout.check = .error (.duplicateProperty name) ∧
      List.Duplicate name (layout.properties.map Property.name) := by
  rcases checkProperties_cases [] hable with hp | ⟨name, hp, htwice⟩
  · exact .inl (check_iff.2 (hvalid (checkProperties_iff.1 hp).1))
  · refine .inr ⟨name, ?_, htwice.resolve_left fun h => List.not_mem_nil h.1⟩
    rw [check, hp]
    rfl

theorem map_fst_slots (layout : RecordLayout) :
    layout.slots.map Prod.fst = layout.properties.filterMap fun p => p.binding.slot? := by
  rw [slots, List.map_filterMap]
  refine congrArg (List.filterMap · layout.properties) (funext fun p => ?_)
  cases p.binding.slot? <;> rfl

end RecordLayout

namespace EnumLayout

structure Valid (layout : EnumLayout) : Prop where
  idents : (layout.members.map EnumMember.ident).Nodup
  labels : layout.labels.Nodup

theorem checkMembers_iff {idents labels : List String} {ms : List EnumMember} :
    checkMembers idents labels ms = .ok () ↔
      (ms.map EnumMember.ident).Nodup ∧ (ms.map EnumMember.label).Nodup ∧
        ∀ m ∈ ms, m.ident ∉ idents ∧ m.label ∉ labels := by
  induction ms generalizing idents labels with
  | nil => simp [checkMembers]
  | cons m ms ih =>
    have hnew : (∀ n ∈ ms, n.ident ∉ m.ident :: idents ∧ n.label ∉ m.label :: labels) ↔
        m.ident ∉ ms.map EnumMember.ident ∧ m.label ∉ ms.map EnumMember.label ∧
          ∀ n ∈ ms, n.ident ∉ idents ∧ n.label ∉ labels := by
      simp only [List.mem_cons, List.mem_map, not_or, not_exists, not_and]
      exact ⟨fun h => ⟨fun n hn he => (h n hn).1.1 he, fun n hn he => (h n hn).2.1 he,
          fun n hn => ⟨(h n hn).1.2, (h n hn).2.2⟩⟩,
        fun h n hn => ⟨⟨fun he => h.1 n hn he, (h.2.2 n hn).1⟩,
          fun he => h.2.1 n hn he, (h.2.2 n hn).2⟩⟩
    rw [checkMembers, List.map_cons, List.map_cons, List.nodup_cons, List.nodup_cons,
      List.forall_mem_cons]
    by_cases hi : m.ident ∈ idents
    · simp [hi]
    · by_cases hl : m.label ∈ labels
      · simp [hi, hl]
      · rw [if_neg (by simpa using hi), if_neg (by simpa using hl), ih, hnew]
        tauto

theorem check_iff {layout : EnumLayout} : layout.check = .ok () ↔ layout.Valid := by
  rw [check, checkMembers_iff]
  exact ⟨fun h => ⟨h.1, h.2.1⟩, fun h => ⟨h.idents, h.labels, by simp⟩⟩

end EnumLayout

structure UnionLayout.Valid (layout : UnionLayout) : Prop where
  nonempty : layout.variants ≠ []
  discriminators : layout.discriminators.Nodup

/-- A codec can be derived from the layout, as far as it does not depend on other types. -/
def Layout.Valid : Layout → Prop
  | .record layout => layout.Valid
  | .enumeration layout => layout.Valid
  | .union layout => layout.Valid
  | .foreign => False
  | _ => True

end Typewire
