import Typewire.Error.Coding
import Typewire.Proofs.Json.Parts
import Typewire.Proofs.Text.Quoted

/-! # The text of a path names one path

After other steps a field begins with a period, and an index or a key with a bracket; neither stands
in the name of a field, and what stands between brackets shows where it ends. So the steps can be
read off the text, where only the period before a first field is left out.
-/

namespace Typewire

namespace Step

variable {s s' : Step} {path path' : List Step} {r r' : List Char}

/-- The name of a field can be told from the steps around it. -/
def IsPlain : Step → Prop
  | field name => name ≠ "" ∧ '.' ∉ name.toList ∧ '[' ∉ name.toList
  | _ => True

/-- How a step is written after other steps. -/
def chars : Step → List Char
  | field name => '.' :: name.toList
  | index i => '[' :: Nat.toDigits 10 i ++ [']']
  | key k => '[' :: '"' :: Text.quoteBody k.toList ++ ['"', ']']

def IsInner (c : Char) : Prop := c ≠ '.' ∧ c ≠ '['

theorem IsPlain.isInner {name : String} (h : (field name).IsPlain) :
    ∀ c ∈ name.toList, IsInner c :=
  fun _ hc => ⟨fun he => h.2.1 (he ▸ hc), fun he => h.2.2 (he ▸ hc)⟩

theorem head?_chars (s : Step) : ∀ c ∈ s.chars.head?, ¬ IsInner c := by
  cases s <;> simp [chars, IsInner]

theorem head?_flatMap_chars (path : List Step) :
    ∀ c ∈ (path.flatMap chars).head?, ¬ IsInner c := by
  cases path with
  | nil => simp
  | cons s path =>
    rw [List.flatMap_cons, List.head?_append_of_ne_nil _ (by cases s <;> simp [chars])]
    exact head?_chars s

theorem toDigits_append_inj {i i' : Nat}
    (h : Nat.toDigits 10 i ++ ']' :: r = Nat.toDigits 10 i' ++ ']' :: r') : i = i' ∧ r = r' := by
  have hdigit : ∀ n, ∀ c ∈ Nat.toDigits 10 n, c.isDigit = true := fun n c hc =>
    Nat.isDigit_of_mem_toDigits (by decide) (by decide) hc
  obtain ⟨hi, hr⟩ := Text.run_append_inj (hdigit i) (hdigit i') (by simp) (by simp) h
  refine ⟨?_, (List.cons.inj hr).2⟩
  rw [← Nat.ofDigitChars_ten_toDigits (n := i), hi, Nat.ofDigitChars_ten_toDigits]

theorem toDigits_append_ne (i : Nat) : Nat.toDigits 10 i ++ r ≠ '"' :: r' := by
  intro h
  cases hds : Nat.toDigits 10 i with
  | nil => exact Nat.toDigits_ne_nil hds
  | cons d ds =>
    rw [hds] at h
    have hd : d.isDigit = true :=
      Nat.isDigit_of_mem_toDigits (b := 10) (n := i) (by decide) (by decide)
        (hds ▸ List.mem_cons_self)
    rw [(List.cons.inj h).1] at hd
    cases hd

theorem chars_append_inj (hs : s.IsPlain) (hs' : s'.IsPlain) (hr : ∀ c ∈ r.head?, ¬ IsInner c)
    (hr' : ∀ c ∈ r'.head?, ¬ IsInner c) (h : s.chars ++ r = s'.chars ++ r') : s = s' ∧ r = r' := by
  cases s <;> cases s' <;>
    simp only [chars, List.cons_append, List.nil_append, List.append_assoc, List.cons.injEq,
      true_and] at h
  case field.field name name' =>
    obtain ⟨hname, hr⟩ := Text.run_append_inj hs.isInner hs'.isInner hr hr' h
    exact ⟨congrArg field (String.toList_inj.1 hname), hr⟩
  case index.index i i' =>
    obtain ⟨rfl, hr⟩ := toDigits_append_inj h
    exact ⟨rfl, hr⟩
  case index.key i k => exact absurd h (toDigits_append_ne i)
  case key.index k i => exact absurd h.symm (toDigits_append_ne i)
  case key.key k k' =>
    obtain ⟨hk, hr⟩ := Text.quoteBody_append_inj h
    exact ⟨congrArg key (String.toList_inj.1 hk), (List.cons.inj hr).2⟩
  all_goals exact absurd h.1 (by decide)

theorem flatMap_chars_inj (h : ∀ s ∈ path, s.IsPlain) (h' : ∀ s ∈ path', s.IsPlain)
    (he : path.flatMap chars = path'.flatMap chars) : path = path' := by
  induction path generalizing path' with
  | nil =>
    cases path' with
    | nil => rfl
    | cons s' path' => cases s' <;> simp [chars] at he
  | cons s path ih =>
    cases path' with
    | nil => cases s <;> simp [chars] at he
    | cons s' path' =>
      obtain ⟨hs, hpath⟩ := List.forall_mem_cons.1 h
      obtain ⟨hs', hpath'⟩ := List.forall_mem_cons.1 h'
      rw [List.flatMap_cons, List.flatMap_cons] at he
      obtain ⟨rfl, hrest⟩ := chars_append_inj hs hs' (head?_flatMap_chars path)
        (head?_flatMap_chars path') he
      rw [ih hpath hpath' hrest]

theorem toList_foldl_extend {text : String} (h : text ≠ "") (path : List Step) :
    (path.foldl extend text).toList = text.toList ++ path.flatMap chars := by
  induction path generalizing text with
  | nil => simp
  | cons s path ih =>
    have hs : (extend text s).toList = text.toList ++ s.chars := by
      cases s <;> simp [extend, chars, Text.quote, h]
    have hne : extend text s ≠ "" := by
      rw [← String.toList_inj.ne, hs]
      simp [h]
    rw [List.foldl_cons, ih hne, hs, List.flatMap_cons, List.append_assoc]

/-- The text with the period that is left out before a first field. -/
def periodRestored (text : List Char) : List Char :=
  match text.head? with
  | none => text
  | some c => if c = '[' then text else '.' :: text

theorem periodRestored_pathText (h : ∀ s ∈ path, s.IsPlain) :
    periodRestored (pathText path).toList = path.flatMap chars := by
  cases path with
  | nil => rfl
  | cons s path =>
    have hne : extend "" s ≠ "" := by
      cases s with
      | field name => exact (h _ List.mem_cons_self).1
      | _ => simp [extend]
    rw [pathText, List.foldl_cons, toList_foldl_extend hne, List.flatMap_cons]
    cases s with
    | field name =>
      have hname : ∀ c ∈ name.toList, IsInner c := IsPlain.isInner (h _ List.mem_cons_self)
      cases hcs : name.toList with
      | nil => exact absurd (String.toList_inj.1 hcs) hne
      | cons c cs =>
        have hc : c ≠ '[' := (hname c (hcs ▸ List.mem_cons_self)).2
        simp [extend, chars, periodRestored, hcs, hc]
    | _ => simp [extend, chars, periodRestored, Text.quote]

theorem pathText_inj (h : ∀ s ∈ path, s.IsPlain) (h' : ∀ s ∈ path', s.IsPlain)
    (he : pathText path = pathText path') : path = path' := by
  apply flatMap_chars_inj h h'
  rw [← periodRestored_pathText h, ← periodRestored_pathText h', he]

/-- A name with a period in it would be taken for two. -/
example : pathText [field "a.b"] = pathText [field "a", field "b"] := by decide

end Step

namespace Located

/-- Two errors write their paths alike exactly if they have the same steps, of the same kinds and
with the same contents, as long as fields have plain names. So what is written leads to one place of
every document. -/
theorem pathText_eq_iff (e e' : DecodeError) (h : ∀ s ∈ e.path, s.IsPlain)
    (h' : ∀ s ∈ e'.path, s.IsPlain) :
    (e.pathText = e'.pathText ↔ e.path = e'.path) ∧
      (e.pathText = e'.pathText → ∀ j : Json, j.follow? e.path = j.follow? e'.path) := by
  have hinj : e.pathText = e'.pathText → e.path = e'.path := Step.pathText_inj h h'
  refine ⟨⟨hinj, congrArg Step.pathText⟩, fun he j => ?_⟩
  rw [hinj he]

/-- A key that holds the marks, brackets and periods of other steps. -/
def inOneKey : DecodeError := ⟨[.field "items", .index 2, .key "a\"].b[\"c\\"], .custom "no"⟩

def inTwoKeys : DecodeError :=
  ⟨[.field "items", .index 2, .key "a", .field "b", .key "c\\"], .custom "no"⟩

theorem pathText_eq_iff_keys :
    ((∀ s ∈ inOneKey.path, s.IsPlain) ∧ (∀ s ∈ inTwoKeys.path, s.IsPlain)) ∧
      (inOneKey.pathText = inTwoKeys.pathText ↔ inOneKey.path = inTwoKeys.path) ∧
      inOneKey.pathText ≠ inTwoKeys.pathText := by
  have h : ∀ s ∈ inOneKey.path, s.IsPlain := by simp [inOneKey, Step.IsPlain]
  have h' : ∀ s ∈ inTwoKeys.path, s.IsPlain := by simp [inTwoKeys, Step.IsPlain]
  have hiff := (pathText_eq_iff inOneKey inTwoKeys h h').1
  exact ⟨⟨h, h'⟩, hiff, fun he => absurd (hiff.1 he) (by decide)⟩

end Located

end Typewire
