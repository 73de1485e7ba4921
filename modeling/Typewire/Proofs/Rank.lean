import Mathlib.Data.Set.Card
import Mathlib.Logic.Relation

/-! # Ranks along relations

Where finitely many elements are reached from a root, a relation among them that never leads back
is bounded by how much is still ahead.
-/

namespace Typewire

open Relation

variable {α : Type} {R S : α → α → Prop} {root a b : α}

noncomputable def rankBy (R : α → α → Prop) (a : α) : Nat := { b | TransGen R a b }.ncard

section Rank

variable (hsub : ∀ a b, R a b → S a b)

include hsub

theorem ahead_subset (ha : ReflTransGen S root a) :
    { b | TransGen R a b } ⊆ { b | ReflTransGen S root b } := by
  intro b hb
  induction hb with
  | single h => exact .tail ha (hsub _ _ h)
  | tail _ h ih => exact .tail ih (hsub _ _ h)

variable (hfin : { b | ReflTransGen S root b }.Finite)

include hfin

theorem rankBy_le (ha : ReflTransGen S root a) :
    rankBy R a ≤ { b | ReflTransGen S root b }.ncard :=
  Set.ncard_le_ncard (ahead_subset hsub ha) hfin

/-- A step that does not lead back to itself goes down. -/
theorem rankBy_lt (ha : ReflTransGen S root a) (h : R a b) (hb : ¬ TransGen R b b) :
    rankBy R b < rankBy R a := by
  refine Set.ncard_lt_ncard ⟨fun c hc => TransGen.head h hc, fun hback => ?_⟩
    (hfin.subset (ahead_subset hsub ha))
  exact hb (hback (TransGen.single h))

end Rank

end Typewire
