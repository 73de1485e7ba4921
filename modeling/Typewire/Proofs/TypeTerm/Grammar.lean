import Mathlib.Tactic.Common
import Typewire.TypeTerm.Reader

/-! # The grammar of type terms

Which texts spell which terms, said without a reader, and how many brackets are open in a text at
one time. As many are open in a text as arguments stand inside one another in its term.
-/

namespace Typewire

namespace Text

def Blank (cs : List Char) : Prop := ∀ c ∈ cs, isBlank c = true

theorem blank_nil : Blank [] := fun c hc => by cases hc

theorem Blank.append {cs cs' : List Char} (h : Blank cs) (h' : Blank cs') : Blank (cs ++ cs') :=
  fun c hc => (List.mem_append.1 hc).elim (h c) (h' c)

theorem Blank.concat {cs : List Char} {c : Char} (h : Blank cs) (hc : isBlank c = true) :
    Blank (cs ++ [c]) :=
  h.append fun d hd => by
    obtain rfl := List.mem_singleton.1 hd
    exact hc

theorem Blank.count_eq_zero {cs : List Char} (h : Blank cs) (c : Char) (hc : isBlank c = false) :
    cs.count c = 0 :=
  List.count_eq_zero.2 fun hm => by
    rw [h c hm] at hc
    cases hc

end Text

namespace TypeTerm

open Text ReaderState

/-- Characters of names: neither white space nor a bracket nor a comma. -/
def isPlain (c : Char) : Bool := !isBlank c && !isDelimiter c

def Word (cs : List Char) : Prop := cs ≠ [] ∧ ∀ c ∈ cs, isPlain c = true

/-- The text spells the terms, with commas between them. A term is spelled by its name, followed by
its arguments between brackets. White space may stand around names, before commas and before closing
brackets. -/
inductive Spells : List Char → List TypeTerm → Prop
  | name {before name after : List Char} : Blank before → Word name → Blank after →
      Spells (before ++ name ++ after) [⟨.ofList name, []⟩]
  | apply {before name after args last : List Char} {ts : List TypeTerm} : Blank before →
      Word name → Blank after → Spells args ts → Blank last →
      Spells (before ++ name ++ after ++ '<' :: (args ++ last ++ ['>'])) [⟨.ofList name, ts⟩]
  | comma {cs before next : List Char} {ts : List TypeTerm} {t : TypeTerm} : Spells cs ts →
      Blank before → Spells next [t] → Spells (cs ++ before ++ ',' :: next) (ts ++ [t])

/-- At every point of the text at most so many brackets are open. -/
def OpensAtMost (limit : Nat) (cs : List Char) : Prop :=
  ∀ p, p <+: cs → p.count '<' ≤ p.count '>' + limit

mutual

/-- How many arguments stand inside one another. -/
def nesting : TypeTerm → Nat
  | ⟨_, []⟩ => 0
  | ⟨_, arg :: args⟩ => max (nesting arg) (nestingAll args) + 1

def nestingAll : List TypeTerm → Nat
  | [] => 0
  | t :: ts => max (nesting t) (nestingAll ts)

end

theorem nesting_apply (head : TypeName) {args : List TypeTerm} (h : args ≠ []) :
    nesting ⟨head, args⟩ = nestingAll args + 1 := by
  cases args with
  | nil => exact absurd rfl h
  | cons arg args => simp [nesting, nestingAll]

theorem nestingAll_append (ts ts' : List TypeTerm) :
    nestingAll (ts ++ ts') = max (nestingAll ts) (nestingAll ts') := by
  induction ts with
  | nil => simp [nestingAll]
  | cons t ts ih => simp [nestingAll, ih, Nat.max_assoc]

theorem nestingAll_singleton (t : TypeTerm) : nestingAll [t] = nesting t := by
  simp [nestingAll]

theorem isPlain_iff {c : Char} :
    isPlain c = true ↔ isBlank c = false ∧ isDelimiter c = false := by
  simp [isPlain]

theorem isBlank_of_isDelimiter {c : Char} (h : isDelimiter c = true) : isBlank c = false := by
  simp only [isDelimiter, Bool.or_eq_true, decide_eq_true_eq] at h
  rcases h with (rfl | rfl) | rfl <;> rfl

theorem Word.count_eq_zero {cs : List Char} (h : Word cs) (c : Char) (hc : isDelimiter c = true) :
    cs.count c = 0 :=
  List.count_eq_zero.2 fun hm => by
    rw [(isPlain_iff.1 (h.2 c hm)).2] at hc
    cases hc

theorem Word.concat {cs : List Char} {c : Char} (h : Word cs) (hc : isPlain c = true) :
    Word (cs ++ [c]) := by
  refine ⟨by simp, fun d hd => ?_⟩
  rcases List.mem_append.1 hd with hd | hd
  · exact h.2 d hd
  · obtain rfl := List.mem_singleton.1 hd
    exact hc

theorem Spells.ne_nil {cs : List Char} {ts : List TypeTerm} (h : Spells cs ts) : ts ≠ [] := by
  cases h <;> simp

theorem count_past_name {before name after : List Char} (hb : Blank before) (hn : Word name)
    (ha : Blank after) (cs : List Char) (c : Char) (hc : isDelimiter c = true) :
    (before ++ name ++ after ++ cs).count c = cs.count c := by
  have hblank := isBlank_of_isDelimiter hc
  simp [hb.count_eq_zero c hblank, hn.count_eq_zero c hc, ha.count_eq_zero c hblank]

theorem Spells.balanced {cs : List Char} {ts : List TypeTerm} (h : Spells cs ts) :
    cs.count '<' = cs.count '>' := by
  induction h with
  | name hb hn ha =>
    have hcount := count_past_name hb hn ha []
    simp only [List.append_nil] at hcount
    rw [hcount '<' rfl, hcount '>' rfl]
    rfl
  | apply hb hn ha _ hl ih =>
    rw [count_past_name hb hn ha _ '<' rfl, count_past_name hb hn ha _ '>' rfl]
    simp [ih, hl.count_eq_zero '<' rfl, hl.count_eq_zero '>' rfl]
  | comma _ hb _ ih ih' => simp [ih, ih', hb.count_eq_zero '<' rfl, hb.count_eq_zero '>' rfl]

/-- At some point of the text as many brackets are open as arguments stand inside one another. -/
theorem Spells.exists_deepest {cs : List Char} {ts : List TypeTerm} (h : Spells cs ts) :
    ∃ p, p <+: cs ∧ p.count '<' = p.count '>' + nestingAll ts := by
  induction h with
  | name => exact ⟨[], List.nil_prefix, rfl⟩
  | @apply before name after args last ts hb hn ha hargs hl ih =>
    obtain ⟨p, hp, hcount⟩ := ih
    refine ⟨before ++ name ++ after ++ '<' :: p, ?_, ?_⟩
    · rw [List.prefix_append_right_inj, List.cons_prefix_cons, List.append_assoc]
      exact ⟨rfl, hp.trans (List.prefix_append _ _)⟩
    · rw [nestingAll_singleton, nesting_apply _ hargs.ne_nil,
        count_past_name hb hn ha _ '<' rfl, count_past_name hb hn ha _ '>' rfl]
      simp [hcount, Nat.add_assoc]
  | @comma cs before next ts t hcs hb _ ih ih' =>
    rw [nestingAll_append]
    rcases Nat.le_total (nestingAll [t]) (nestingAll ts) with hle | hle
    · obtain ⟨p, hp, hcount⟩ := ih
      rw [Nat.max_eq_left hle, List.append_assoc]
      exact ⟨p, hp.trans (List.prefix_append _ _), hcount⟩
    · obtain ⟨p, hp, hcount⟩ := ih'
      rw [Nat.max_eq_right hle]
      refine ⟨cs ++ before ++ ',' :: p, ?_, ?_⟩
      · rw [List.prefix_append_right_inj, List.cons_prefix_cons]
        exact ⟨rfl, hp⟩
      · have hbalanced := hcs.balanced
        simp [hcount, hb.count_eq_zero '<' rfl, hb.count_eq_zero '>' rfl]
        omega

theorem OpensAtMost.nestingAll_le {limit : Nat} {cs : List Char} {ts : List TypeTerm}
    (h : OpensAtMost limit cs) (hs : Spells cs ts) : nestingAll ts ≤ limit := by
  obtain ⟨p, hp, hcount⟩ := hs.exists_deepest
  have hle := h p hp
  omega

end TypeTerm

end Typewire
