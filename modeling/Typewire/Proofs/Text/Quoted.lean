import Mathlib.Data.List.Basic
import Typewire.Text.Quoted

/-! # Quoted text is read in one way

The form of a character inside quotation marks shows where it ends, and it never begins with the
mark itself. So the mark that closes a quoted text is found, and the text before it is determined.
-/

namespace Typewire.Text

/-- Two runs of characters of one kind are the same if what follows each of them, if anything does,
begins with a character of another kind. -/
theorem run_append_inj {p : Char → Prop} {as bs s t : List Char} (has : ∀ c ∈ as, p c)
    (hbs : ∀ c ∈ bs, p c) (hs : ∀ c ∈ s.head?, ¬ p c) (ht : ∀ c ∈ t.head?, ¬ p c)
    (h : as ++ s = bs ++ t) : as = bs ∧ s = t := by
  induction as generalizing bs with
  | nil =>
    cases bs with
    | nil => exact ⟨rfl, h⟩
    | cons b bs =>
      subst h
      exact absurd (hbs b List.mem_cons_self) (hs b rfl)
  | cons a as ih =>
    cases bs with
    | nil =>
      subst h
      exact absurd (has a List.mem_cons_self) (ht a rfl)
    | cons b bs =>
      obtain ⟨rfl, hrest⟩ := List.cons.inj h
      obtain ⟨rfl, hst⟩ := ih (fun c hc => has c (List.mem_cons_of_mem a hc))
        (fun c hc => hbs c (List.mem_cons_of_mem a hc)) hrest
      exact ⟨rfl, hst⟩

theorem digitChar_inj : ∀ m < 16, ∀ n < 16, Nat.digitChar m = Nat.digitChar n → m = n := by
  decide

theorem hex_injective : Function.Injective hex := by
  intro m
  -- All but the last digit are the digits of the sixteenth part.
  induction m using Nat.strongRecOn with
  | ind m ih =>
    intro n h
    simp only [hex] at h
    rcases Nat.lt_or_ge m 16 with hm | hm <;> rcases Nat.lt_or_ge n 16 with hn | hn
    · rw [Nat.toDigits_of_lt_base hm, Nat.toDigits_of_lt_base hn] at h
      exact digitChar_inj m hm n hn (List.singleton_inj.1 h)
    · rw [Nat.toDigits_of_lt_base hm, Nat.toDigits_of_base_le (by decide) hn] at h
      exact absurd (congrArg List.length h) (by simp [Nat.toDigits_ne_nil])
    · rw [Nat.toDigits_of_base_le (by decide) hm, Nat.toDigits_of_lt_base hn] at h
      exact absurd (congrArg List.length h) (by simp [Nat.toDigits_ne_nil])
    · rw [Nat.toDigits_of_base_le (by decide) hm, Nat.toDigits_of_base_le (by decide) hn] at h
      obtain ⟨hinit, hlast⟩ := List.append_inj' h rfl
      have hdiv : m / 16 = n / 16 := ih (m / 16) (by omega) hinit
      have hmod : m % 16 = n % 16 :=
        digitChar_inj _ (by omega) _ (by omega) (List.singleton_inj.1 hlast)
      omega

theorem digitChar_ne_brace : ∀ n < 16, Nat.digitChar n ≠ '\x7d' := by
  decide

theorem ne_brace_of_mem_hex {n : Nat} {c : Char} (h : c ∈ hex n) : c ≠ '\x7d' := by
  induction n using Nat.base_induction 16 (by decide) with
  | single m hm =>
    rw [hex, Nat.toDigits_of_lt_base hm, List.mem_singleton] at h
    exact h ▸ digitChar_ne_brace m hm
  | digit m k hk hm ih =>
    rw [hex, ← Nat.toDigits_append_toDigits (by decide) hm hk, List.mem_append] at h
    rcases h with h | h
    · exact ih h
    · rw [Nat.toDigits_of_lt_base hk, List.mem_singleton] at h
      exact h ▸ digitChar_ne_brace k hk

def escaped? : Char → Option Char
  | '"' => some '"'
  | '\\' => some '\\'
  | 'n' => some '\n'
  | 'r' => some '\r'
  | 't' => some '\t'
  | '0' => some '\x00'
  | _ => none

theorem quoteChar_cases (c : Char) :
    (∃ e, escaped? e = some c ∧ quoteChar '"' c = ['\\', e]) ∨
      quoteChar '"' c = ['\\', 'u', '\x7b'] ++ hex c.toNat ++ ['\x7d'] ∨
      c ≠ '"' ∧ c ≠ '\\' ∧ quoteChar '"' c = [c] := by
  unfold quoteChar
  split
  · rename_i h
    rcases h with rfl | rfl
    · exact .inl ⟨_, rfl, rfl⟩
    · exact .inl ⟨_, rfl, rfl⟩
  · rename_i h
    repeat' split
    all_goals subst_vars
    all_goals first
      | exact .inl ⟨_, rfl, rfl⟩
      | exact .inr (.inl rfl)
      | exact .inr (.inr ⟨fun he => h (.inl he), fun he => h (.inr he), rfl⟩)

/-- The form of a character can be told from whatever follows it. -/
theorem quoteChar_append_inj {c d : Char} {s t : List Char}
    (h : quoteChar '"' c ++ s = quoteChar '"' d ++ t) : c = d ∧ s = t := by
  rcases quoteChar_cases c with ⟨e, he, hc⟩ | hc | ⟨-, hback, hc⟩ <;>
    rcases quoteChar_cases d with ⟨f, hf, hd⟩ | hd | ⟨-, hback', hd⟩ <;>
      simp only [hc, hd, List.cons_append, List.nil_append, List.append_assoc, List.cons.injEq,
        true_and] at h
  · obtain ⟨rfl, h⟩ := h
    exact ⟨Option.some.inj (he.symm.trans hf), h⟩
  · rw [h.1] at he
    cases he
  · exact absurd h.1.symm hback'
  · rw [← h.1] at hf
    cases hf
  · obtain ⟨hhex, h⟩ := run_append_inj (p := (· ≠ '\x7d')) (fun _ => ne_brace_of_mem_hex)
      (fun _ => ne_brace_of_mem_hex) (by simp) (by simp) h
    exact ⟨Char.toNat_inj.1 (hex_injective hhex), (List.cons.inj h).2⟩
  · exact absurd h.1.symm hback'
  · exact absurd h.1 hback
  · exact absurd h.1 hback
  · exact h

theorem quoteChar_ne_mark (c : Char) (s t : List Char) : quoteChar '"' c ++ s ≠ '"' :: t := by
  intro h
  rcases quoteChar_cases c with ⟨e, -, hc⟩ | hc | ⟨hquote, -, hc⟩ <;> simp [hc] at h
  exact hquote h.1

/-- The mark that closes a text is found, and the text before it is determined. -/
theorem quoteBody_append_inj {cs ds s t : List Char}
    (h : quoteBody cs ++ '"' :: s = quoteBody ds ++ '"' :: t) : cs = ds ∧ s = t := by
  induction cs generalizing ds with
  | nil =>
    cases ds with
    | nil => exact ⟨rfl, (List.cons.inj h).2⟩
    | cons d ds =>
      rw [quoteBody, quoteBody, List.flatMap_cons, List.append_assoc] at h
      exact absurd h.symm (quoteChar_ne_mark d _ _)
  | cons c cs ih =>
    cases ds with
    | nil =>
      rw [quoteBody, quoteBody, List.flatMap_cons, List.append_assoc] at h
      exact absurd h (quoteChar_ne_mark c _ _)
    | cons d ds =>
      simp only [quoteBody, List.flatMap_cons, List.append_assoc] at h
      obtain ⟨rfl, hrest⟩ := quoteChar_append_inj h
      obtain ⟨rfl, hst⟩ := ih hrest
      exact ⟨rfl, hst⟩

end Typewire.Text
