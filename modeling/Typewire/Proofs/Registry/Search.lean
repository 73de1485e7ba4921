import Mathlib.Data.Finset.Card
import Mathlib.Logic.Relation
import Mathlib.Tactic.Common

/-! # Depth-first search

The search goes from a node through all that it leads to, and passes by what it has seen. It fails
at the first step that is an error. What it finds is the closure of the node, whatever is seen
before, if that is explored already.
-/

namespace Typewire.Search

variable {α ε : Type}

def walk (visit : α → Finset α → Except ε (Finset α)) :
    List (Except ε α) → Finset α → Except ε (Finset α)
  | [], seen => .ok seen
  | .error e :: _, _ => .error e
  | .ok a :: steps, seen => (visit a seen).bind (walk visit steps)

/-- Visit a node and all that it leads to, with at most `calls` visits inside one another. -/
def visit [DecidableEq α] (steps : α → List (Except ε α)) (endless : ε) :
    Nat → α → Finset α → Except ε (Finset α)
  | 0, _, _ => .error endless
  | calls + 1, a, seen =>
    if a ∈ seen then .ok seen else walk (visit steps endless calls) (steps a) (insert a seen)

section Closure

variable (steps : α → List (Except ε α))

def Leads (a b : α) : Prop := .ok b ∈ steps a

def Reaches : α → α → Prop := Relation.ReflTransGen (Leads steps)

/-- All steps from the nodes of the first set lead into the second. -/
def Explored (seen known : Finset α) : Prop := ∀ a ∈ seen, ∀ s ∈ steps a, ∃ b ∈ known, s = .ok b

end Closure

variable {steps : α → List (Except ε α)} {endless : ε} {calls : Nat} {a b : α}
  {seen found known : Finset α}

theorem Explored.mono {known' : Finset α} (h : Explored steps seen known) (hk : known ⊆ known') :
    Explored steps seen known' := fun a ha s hs =>
  have ⟨b, hb, he⟩ := h a ha s hs
  ⟨b, hk hb, he⟩

theorem Explored.mem_of_reaches (h : Explored steps seen seen) (ha : a ∈ seen)
    (hr : Reaches steps a b) : b ∈ seen := by
  induction hr with
  | refl => exact ha
  | tail _ hs ih =>
    obtain ⟨c, hc, he⟩ := h _ ih _ hs
    cases he
    exact hc

section Visit

variable [DecidableEq α]

/-- The visits add the node and only what is reached from it, with all steps explored. -/
def Finds (steps : α → List (Except ε α)) (visit : α → Finset α → Except ε (Finset α)) : Prop :=
  ∀ a seen found, visit a seen = .ok found → seen ⊆ found ∧ a ∈ found ∧
    (∀ b ∈ found, b ∈ seen ∨ Reaches steps a b) ∧ Explored steps (found \ seen) found

theorem Finds.walk {visit : α → Finset α → Except ε (Finset α)} (hv : Finds steps visit)
    {ss : List (Except ε α)} (h : walk visit ss seen = .ok found) :
    seen ⊆ found ∧ (∀ s ∈ ss, ∃ b ∈ found, s = .ok b) ∧
      (∀ b ∈ found, b ∈ seen ∨ ∃ a, .ok a ∈ ss ∧ Reaches steps a b) ∧
      Explored steps (found \ seen) found := by
  induction ss generalizing seen with
  | nil =>
    cases h
    exact ⟨subset_rfl, by simp, fun b hb => .inl hb, fun a ha => by simp at ha⟩
  | cons s ss ih =>
    rcases s with e | a
    · cases h
    · rw [Search.walk] at h
      rcases hmid : visit a seen with e | mid <;> rw [hmid] at h
      · cases h
      · obtain ⟨hsub, ha, hreach, hexp⟩ := hv a seen mid hmid
        obtain ⟨hsub', hsteps, hreach', hexp'⟩ := ih h
        refine ⟨hsub.trans hsub', ?_, fun b hb => ?_, fun b hb => ?_⟩
        · exact List.forall_mem_cons.2 ⟨⟨a, hsub' ha, rfl⟩, hsteps⟩
        · rcases hreach' b hb with hb | ⟨c, hc, hr⟩
          · exact (hreach b hb).imp_right fun hr => ⟨a, List.mem_cons_self, hr⟩
          · exact .inr ⟨c, List.mem_cons_of_mem _ hc, hr⟩
        · obtain ⟨hb, hn⟩ := Finset.mem_sdiff.1 hb
          by_cases hm : b ∈ mid
          · exact hexp.mono hsub' b (Finset.mem_sdiff.2 ⟨hm, hn⟩)
          · exact hexp' b (Finset.mem_sdiff.2 ⟨hb, hm⟩)

theorem finds_visit (steps : α → List (Except ε α)) (endless : ε) (calls : Nat) :
    Finds steps (visit steps endless calls) := by
  induction calls with
  | zero => exact fun a seen found h => by cases h
  | succ calls ih =>
    intro a seen found h
    rw [visit] at h
    split at h
    · cases h
      exact ⟨subset_rfl, ‹_›, fun b hb => .inl hb, fun b hb => by simp at hb⟩
    · obtain ⟨hsub, hsteps, hreach, hexp⟩ := ih.walk h
      have ha : a ∈ found := hsub (Finset.mem_insert_self a seen)
      refine ⟨(Finset.subset_insert a seen).trans hsub, ha, fun b hb => ?_, fun b hb => ?_⟩
      · rcases hreach b hb with hb | ⟨c, hc, hr⟩
        · rcases Finset.mem_insert.1 hb with rfl | hb
          · exact .inr .refl
          · exact .inl hb
        · exact .inr (.head hc hr)
      · obtain ⟨hb, hn⟩ := Finset.mem_sdiff.1 hb
        by_cases he : b = a
        · exact he ▸ hsteps
        · refine hexp b (Finset.mem_sdiff.2 ⟨hb, fun hm => ?_⟩)
          exact (Finset.mem_insert.1 hm).elim he hn

/-- From explored nodes the search finds the closure of the node, and no error in it. -/
theorem mem_visit_iff (hseen : Explored steps seen seen)
    (h : visit steps endless calls a seen = .ok found) :
    (∀ b, b ∈ found ↔ b ∈ seen ∨ Reaches steps a b) ∧ Explored steps found found := by
  obtain ⟨hsub, ha, hreach, hexp⟩ := finds_visit steps endless calls a seen found h
  -- What was seen before was explored already.
  have hexp' : Explored steps found found := by
    intro b hb
    by_cases hm : b ∈ seen
    · exact hseen.mono hsub b hm
    · exact hexp b (Finset.mem_sdiff.2 ⟨hb, hm⟩)
  refine ⟨fun b => ⟨hreach b, fun hb => ?_⟩, hexp'⟩
  rcases hb with hb | hb
  · exact hsub hb
  · exact hexp'.mem_of_reaches ha hb

def Blames (steps : α → List (Except ε α)) (endless : ε)
    (visit : α → Finset α → Except ε (Finset α)) : Prop :=
  ∀ a seen e, visit a seen = .error e → e = endless ∨ ∃ b, Reaches steps a b ∧ .error e ∈ steps b

omit [DecidableEq α] in
theorem Blames.walk {visit : α → Finset α → Except ε (Finset α)}
    (hv : Blames steps endless visit) {ss : List (Except ε α)} {e : ε}
    (h : walk visit ss seen = .error e) :
    e = endless ∨ .error e ∈ ss ∨
      ∃ a b, .ok a ∈ ss ∧ Reaches steps a b ∧ .error e ∈ steps b := by
  induction ss generalizing seen with
  | nil => cases h
  | cons s ss ih =>
    rcases s with e' | c
    · cases h
      exact .inr (.inl List.mem_cons_self)
    · rw [Search.walk] at h
      rcases hmid : visit c seen with e' | mid <;> rw [hmid] at h
      · cases h
        obtain he | ⟨b, hr, he⟩ := hv c seen _ hmid
        · exact .inl he
        · exact .inr (.inr ⟨c, b, List.mem_cons_self, hr, he⟩)
      · obtain h | h | ⟨c', b, hc, hr, he⟩ := ih h
        · exact .inl h
        · exact .inr (.inl (List.mem_cons_of_mem _ h))
        · exact .inr (.inr ⟨c', b, List.mem_cons_of_mem _ hc, hr, he⟩)

theorem blames_visit (steps : α → List (Except ε α)) (endless : ε) (calls : Nat) :
    Blames steps endless (visit steps endless calls) := by
  induction calls with
  | zero =>
    intro a seen e h
    cases h
    exact .inl rfl
  | succ calls ih =>
    intro a seen e h
    rw [visit] at h
    split at h
    · cases h
    · obtain h | h | ⟨c, b, hc, hr, he⟩ := ih.walk h
      · exact .inl h
      · exact .inr ⟨a, .refl, h⟩
      · exact .inr ⟨b, .head hc hr, he⟩

def Ends (endless : ε) (all : Finset α) (calls : Nat)
    (visit : α → Finset α → Except ε (Finset α)) : Prop :=
  ∀ a ∈ all, ∀ seen, (all \ seen).card < calls → visit a seen ≠ .error endless

theorem Ends.walk {visit : α → Finset α → Except ε (Finset α)} {all : Finset α}
    (hv : Ends endless all calls visit) (hf : Finds steps visit) {ss : List (Except ε α)}
    (hall : ∀ b, .ok b ∈ ss → b ∈ all) (hend : .error endless ∉ ss)
    (hcalls : (all \ seen).card < calls) : walk visit ss seen ≠ .error endless := by
  induction ss generalizing seen with
  | nil => exact fun h => by cases h
  | cons s ss ih =>
    intro h
    rcases s with e | c
    · cases h
      exact hend List.mem_cons_self
    · rw [Search.walk] at h
      rcases hmid : visit c seen with e | mid <;> rw [hmid] at h
      · cases h
        exact hv c (hall c List.mem_cons_self) seen hcalls hmid
      · have hsub := (hf c seen mid hmid).1
        have hcard := Finset.card_le_card (Finset.sdiff_subset_sdiff (subset_refl all) hsub)
        exact ih (fun b hb => hall b (List.mem_cons_of_mem _ hb))
          (fun he => hend (List.mem_cons_of_mem _ he)) (hcard.trans_lt hcalls) h

/-- Each visit inside another sees one more node. -/
theorem ends_visit {all : Finset α} (hall : ∀ a ∈ all, ∀ b, Leads steps a b → b ∈ all)
    (hend : ∀ a ∈ all, .error endless ∉ steps a) (calls : Nat) :
    Ends endless all calls (visit steps endless calls) := by
  induction calls with
  | zero => exact fun a _ seen h => absurd h (Nat.not_lt_zero _)
  | succ calls ih =>
    intro a ha seen hcalls
    rw [visit]
    split
    · exact fun h => by cases h
    · rename_i hn
      refine ih.walk (finds_visit steps endless calls) (hall a ha) (hend a ha) ?_
      have hlt : (all \ insert a seen).card < (all \ seen).card := by
        refine Finset.card_lt_card ⟨?_, fun hsub => ?_⟩
        · exact Finset.sdiff_subset_sdiff subset_rfl (Finset.subset_insert a seen)
        · have := hsub (Finset.mem_sdiff.2 ⟨ha, hn⟩)
          simp at this
      omega

def Ignores (endless : ε) (done : Finset α) (visit : α → Finset α → Except ε (Finset α)) : Prop :=
  ∀ a seen, visit a seen ≠ .error endless →
    visit a (seen ∪ done) = (visit a seen).map (· ∪ done)

theorem Ignores.walk {visit : α → Finset α → Except ε (Finset α)} {done : Finset α}
    (hv : Ignores endless done visit) {ss : List (Except ε α)}
    (h : walk visit ss seen ≠ .error endless) :
    walk visit ss (seen ∪ done) = (walk visit ss seen).map (· ∪ done) := by
  induction ss generalizing seen with
  | nil => rfl
  | cons s ss ih =>
    rcases s with e | c
    · rfl
    · rw [Search.walk] at h ⊢
      rw [Search.walk]
      have hc := hv c seen
      rcases hmid : visit c seen with e | mid <;> rw [hmid] at h hc
      · rw [hc h]
        rfl
      · rw [hc fun h => by cases h]
        exact ih h

theorem ignores_visit {done : Finset α} (hdone : Explored steps done done) (endless : ε)
    (calls : Nat) : Ignores endless done (visit steps endless calls) := by
  induction calls with
  | zero => exact fun a seen h => absurd rfl h
  | succ calls ih =>
    intro a seen h
    by_cases hseen : a ∈ seen
    · rw [visit, visit, if_pos hseen, if_pos (Finset.mem_union_left _ hseen)]
      rfl
    by_cases hd : a ∈ done
    · rw [visit, if_pos (Finset.mem_union_right _ hd)]
      rcases hvisit : visit steps endless (calls + 1) a seen with e | found
      · obtain rfl | ⟨b, hr, he⟩ := blames_visit steps endless _ a seen e hvisit
        · exact absurd hvisit h
        · obtain ⟨c, -, hc⟩ := hdone b (hdone.mem_of_reaches hd hr) _ he
          cases hc
      · obtain ⟨hsub, -, hreach, -⟩ := finds_visit steps endless _ a seen found hvisit
        refine congrArg Except.ok (Finset.Subset.antisymm ?_ ?_)
        · exact Finset.union_subset_union_left hsub
        · refine Finset.union_subset (fun b hb => ?_) Finset.subset_union_right
          rcases hreach b hb with hb | hr
          · exact Finset.mem_union_left _ hb
          · exact Finset.mem_union_right _ (hdone.mem_of_reaches hd hr)
    · have hn : a ∉ seen ∪ done := by
        rw [Finset.mem_union, not_or]
        exact ⟨hseen, hd⟩
      rw [visit, if_neg hseen] at h
      rw [visit, visit, if_neg hseen, if_neg hn, ← Finset.insert_union]
      exact ih.walk h

end Visit

end Typewire.Search
