import Mathlib.Data.List.Perm.Basic
import Typewire.Proofs.Catalog.Declaration

/-! # Records in another order

A record whose properties are declared in another order has the same properties, apart from the
numbers of its slots, and one of the two is valid if the other is.
-/

namespace Typewire

def Binding.unnumbered : Binding → Binding
  | slot _ => slot 0
  | b => b

def Property.unnumbered (p : Property) : Property := { p with binding := p.binding.unnumbered }

theorem PropertyDeclaration.Gives.unnumbered_eq {params : List String} {d : PropertyDeclaration}
    {p q : Property} (hp : d.Gives params p) (hq : d.Gives params q) :
    p.unnumbered = q.unnumbered := by
  have hname := hp.name.trans hq.name.symm
  have htype := Except.ok.inj (hp.type.symm.trans hq.type)
  have hbinding : p.binding.unnumbered = q.binding.unnumbered := by
    obtain ⟨i, hi⟩ := hp.binding
    obtain ⟨k, hk⟩ := hq.binding
    rw [hi, hk]
    cases d.binding <;> rfl
  have haccessor := hp.accessor.trans hq.accessor.symm
  have hmandatory := hp.mandatory.trans hq.mandatory.symm
  have hserializable := hp.serializable.trans hq.serializable.symm
  have hdeserializable : p.deserializable = q.deserializable := by
    rw [hp.deserializable, hq.deserializable, hp.isWritable, hq.isWritable]
  cases p
  cases q
  simp_all [Property.unnumbered]

/-- Two records of the same properties, apart from order and from the numbers of slots. Both are
built field by field. -/
structure RecordLayout.Reorders (type : TypeName) (layout layout' : RecordLayout) : Prop where
  left : layout.Assembled type
  right : layout'.Assembled type
  perm : (layout.properties.map Property.unnumbered).Perm
    (layout'.properties.map Property.unnumbered)
  check_iff : layout.check = .ok () ↔ layout'.check = .ok ()

theorem RecordLayout.Reorders.symm {type : TypeName} {layout layout' : RecordLayout}
    (h : layout.Reorders type layout') : layout'.Reorders type layout :=
  ⟨h.right, h.left, h.perm.symm, h.check_iff.symm⟩

namespace RecordDeclaration

variable {r : RecordDeclaration} {ps : List PropertyDeclaration} {d d' : TypeDefinition}
  {layout layout' : RecordLayout}

theorem exists_define_reordered_iff (hperm : ps.Perm r.properties) :
    (∃ d, r.define = .ok d) ↔
      ∃ d, RecordDeclaration.define { r with properties := ps } = .ok d := by
  rw [exists_define_iff, exists_define_iff]
  exact forall_congr' fun p => by rw [hperm.mem_iff]

/-- The same declarations in another order give the same properties in another order. -/
theorem reorders_define (hc : r.constructor? = none) (hperm : ps.Perm r.properties)
    (h : r.define = .ok d) (h' : RecordDeclaration.define { r with properties := ps } = .ok d')
    (hl : d.layout = .record layout) (hl' : d'.layout = .record layout') :
    layout.Reorders r.name layout' := by
  have hright := assembled_define h' hl' hc
  refine ⟨assembled_define h hl hc, hright, ?_, ?_⟩
  · let Gives := fun (p : PropertyDeclaration) (q : Property) =>
      ∃ p', p.Gives r.params p' ∧ p'.unnumbered = q
    have hunique : Relator.RightUnique Gives := by
      rintro p _ _ ⟨p₁, h₁, rfl⟩ ⟨p₂, h₂, rfl⟩
      exact h₁.unnumbered_eq h₂
    have hgives : List.Forall₂ Gives r.properties (layout.properties.map Property.unnumbered) :=
      List.forall₂_map_right_iff.2 ((forall₂_define h hl).imp fun p q hq => ⟨q, hq, rfl⟩)
    have hgives' : List.Forall₂ Gives ps (layout'.properties.map Property.unnumbered) :=
      List.forall₂_map_right_iff.2 ((forall₂_define h' hl').imp fun p q hq => ⟨q, hq, rfl⟩)
    exact List.rel_perm_imp hunique hgives hgives' hperm.symm
  · rw [check_define_iff h hl hc, check_define_iff h' hl' hc]
    refine and_congr (hperm.map _).nodup_iff.symm (forall_congr' fun p => ?_)
    rw [hperm.mem_iff]

end RecordDeclaration

end Typewire
