import Mathlib.Data.List.Basic
import Mathlib.Logic.Relation
import Mathlib.Tactic.Common
import Typewire.Catalog

/-! # Declared subtypes

Climbing comes to the types that the declared edges lead to, cycles or not, and to no others.
-/

namespace Typewire.Catalog

variable {edges : List (TypeName × TypeName)} {reached : List TypeName}

/-- Zero or more declared edges lead from one type to the other. -/
def Leads (edges : List (TypeName × TypeName)) : TypeName → TypeName → Prop :=
  Relation.ReflTransGen fun sub sup => (sub, sup) ∈ edges

theorem mem_climb {type : TypeName} :
    type ∈ climb edges reached ↔ type ∈ reached ∨ ∃ sub ∈ reached, (sub, type) ∈ edges := by
  rw [climb, List.mem_append, List.mem_map]
  constructor
  · rintro (h | ⟨⟨sub, sup⟩, he, rfl⟩)
    · exact .inl h
    · obtain ⟨he, hs⟩ := List.mem_filter.1 he
      refine .inr ⟨sub, ?_, he⟩
      simp only [Bool.and_eq_true, List.contains_iff_mem] at hs
      exact hs.1
  · rintro (h | ⟨sub, hs, he⟩)
    · exact .inl h
    · by_cases ht : type ∈ reached
      · exact .inl ht
      · refine .inr ⟨(sub, type), List.mem_filter.2 ⟨he, ?_⟩, rfl⟩
        simp [hs, ht]

theorem leads_of_mem_climbs (n : Nat) {type : TypeName} (h : type ∈ climbs edges n reached) :
    ∃ sub ∈ reached, Leads edges sub type := by
  induction n generalizing reached with
  | zero => exact ⟨type, h, .refl⟩
  | succ n ih =>
    obtain ⟨sup, hs, hl⟩ := ih h
    rcases mem_climb.1 hs with hs | ⟨sub, hs, he⟩
    · exact ⟨sup, hs, hl⟩
    · exact ⟨sub, hs, .head he hl⟩

theorem mem_climbs_of_mem (n : Nat) {type : TypeName} (h : type ∈ reached) :
    type ∈ climbs edges n reached := by
  induction n generalizing reached with
  | zero => exact h
  | succ n ih => exact ih (mem_climb.2 (.inl h))

theorem leads_of_isSubtype {c : Catalog} {sub sup : TypeName} (h : c.isSubtype sub sup = true) :
    Leads c.supertypes sub sup := by
  rw [isSubtype, List.contains_iff_mem] at h
  obtain ⟨type, ht, hl⟩ := leads_of_mem_climbs _ h
  rw [List.mem_singleton] at ht
  exact ht ▸ hl

/-- The edges that lead to types not reached yet. -/
def ahead (edges : List (TypeName × TypeName)) (reached : List TypeName) :
    List (TypeName × TypeName) :=
  edges.filter fun e => !reached.contains e.2

theorem exists_edge_of_leads {sub type : TypeName} (h : Leads edges sub type) (hs : sub ∈ reached)
    (ht : type ∉ reached) : ∃ a ∈ reached, ∃ b, (a, b) ∈ edges ∧ b ∉ reached := by
  induction h with
  | refl => exact absurd hs ht
  | @tail mid type _ hedge ih =>
    by_cases hmid : mid ∈ reached
    · exact ⟨mid, hmid, type, hedge, ht⟩
    · exact ih hmid

/-- A climb along such an edge leaves fewer of them ahead. -/
theorem length_ahead_climb_lt {a b : TypeName} (ha : a ∈ reached) (hedge : (a, b) ∈ edges)
    (hb : b ∉ reached) :
    (ahead edges (climb edges reached)).length < (ahead edges reached).length := by
  have hsub : (ahead edges (climb edges reached)).Sublist (ahead edges reached) := by
    refine List.monotone_filter_right edges fun e he => ?_
    simp only [Bool.not_eq_true', List.contains_eq_mem, decide_eq_false_iff_not] at he ⊢
    exact fun hm => he (mem_climb.2 (.inl hm))
  have hmem : (a, b) ∈ ahead edges reached := List.mem_filter.2 ⟨hedge, by simpa using hb⟩
  refine Nat.lt_of_le_of_ne hsub.length_le fun heq => ?_
  have hleft : (a, b) ∈ ahead edges (climb edges reached) := hsub.eq_of_length heq ▸ hmem
  have hnot : b ∉ climb edges reached := by simpa using (List.mem_filter.1 hleft).2
  exact hnot (mem_climb.2 (.inr ⟨a, ha, hedge⟩))

theorem mem_climbs_of_leads {n : Nat} {sub type : TypeName}
    (hn : (ahead edges reached).length ≤ n) (hs : sub ∈ reached) (h : Leads edges sub type) :
    type ∈ climbs edges n reached := by
  induction n generalizing reached with
  | zero =>
    by_contra ht
    obtain ⟨a, ha, b, hedge, hb⟩ := exists_edge_of_leads h hs ht
    have := length_ahead_climb_lt ha hedge hb
    omega
  | succ n ih =>
    by_cases ht : type ∈ reached
    · exact mem_climbs_of_mem (n + 1) ht
    · obtain ⟨a, ha, b, hedge, hb⟩ := exists_edge_of_leads h hs ht
      have := length_ahead_climb_lt ha hedge hb
      exact ih (by omega) (mem_climb.2 (.inl hs))

theorem isSubtype_iff {c : Catalog} {sub sup : TypeName} :
    c.isSubtype sub sup = true ↔ Leads c.supertypes sub sup := by
  refine ⟨leads_of_isSubtype, fun h => ?_⟩
  rw [isSubtype, List.contains_iff_mem]
  exact mem_climbs_of_leads (List.length_filter_le _ _) (List.mem_singleton_self sub) h

theorem isSubtype_self (c : Catalog) (type : TypeName) : c.isSubtype type type = true := by
  rw [isSubtype, List.contains_iff_mem]
  exact mem_climbs_of_mem _ (List.mem_singleton_self type)

end Typewire.Catalog
