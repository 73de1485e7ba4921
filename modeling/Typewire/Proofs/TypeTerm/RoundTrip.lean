import Typewire.Proofs.TypeTerm.Reading

/-! # Terms are read as they are written

A term is read back from its text, unless a name in it is none or its arguments stand too deep
inside one another. No term that is read is of that kind.
-/

namespace Typewire.TypeTerm

open Text

/-- The term has a name, and so have all terms inside it. -/
inductive Worded : TypeTerm → Prop
  | mk {t : TypeTerm} : Word t.head.toList → (∀ arg ∈ t.args, Worded arg) → Worded t

/-- A term whose text can be read. -/
structure Legible (t : TypeTerm) : Prop where
  worded : Worded t
  nesting_le : nesting t ≤ maxOpen

variable {cs before : List Char} {t : TypeTerm} {ts args : List TypeTerm} {s : String}

theorem worded_ofList {name : List Char} (hw : Word name) (h : ∀ arg ∈ args, Worded arg) :
    Worded ⟨.ofList name, args⟩ :=
  .mk (String.toList_ofList ▸ hw) h

theorem Spells.worded (h : Spells cs ts) : ∀ t ∈ ts, Worded t := by
  induction h with
  | name _ hw _ =>
    intro t ht
    obtain rfl := List.mem_singleton.1 ht
    exact worded_ofList hw fun arg harg => by cases harg
  | apply _ hw _ _ _ ih =>
    intro t ht
    obtain rfl := List.mem_singleton.1 ht
    exact worded_ofList hw ih
  | comma _ _ _ ih ih' =>
    intro t ht
    rcases List.mem_append.1 ht with ht | ht
    · exact ih t ht
    · exact ih' t ht

theorem Derives.worded (h : Derives s t) : Worded t := by
  obtain ⟨key, last, -, hk, -⟩ := h
  exact hk.worded t (List.mem_singleton_self t)

theorem legible_of_read (h : read s = .ok t) : Legible t := by
  obtain ⟨hd, ho⟩ := derives_of_read h
  exact ⟨hd.worded, hd.nesting_le ho⟩

theorem Spells.blank_append (h : Spells cs [t]) (hb : Blank before) :
    Spells (before ++ cs) [t] := by
  generalize hts : [t] = ts at h
  cases h with
  | name hb' hw ha =>
    have hspells := Spells.name (hb.append hb') hw ha
    simpa using hspells
  | apply hb' hw ha hargs hl =>
    have hspells := Spells.apply (hb.append hb') hw ha hargs hl
    simpa using hspells
  | comma hcs =>
    obtain ⟨rfl, -⟩ := List.append_inj' (show [] ++ [t] = _ ++ [_] from hts) rfl
    exact absurd rfl hcs.ne_nil

theorem Spells.textTail (h : Spells cs ts) (hargs : ∀ arg ∈ args, Spells arg.text.toList [arg]) :
    Spells (cs ++ (textTail args).toList) (ts ++ args) := by
  induction args generalizing cs ts with
  | nil => simpa [TypeTerm.textTail] using h
  | cons arg args ih =>
    obtain ⟨harg, hargs⟩ := List.forall_mem_cons.1 hargs
    have hspace : Blank [' '] := fun c hc => by
      obtain rfl := List.mem_singleton.1 hc
      rfl
    have hspells := ih (.comma h blank_nil (harg.blank_append hspace)) hargs
    simpa [TypeTerm.textTail] using hspells

theorem Worded.spells_text (h : Worded t) : Spells t.text.toList [t] := by
  induction h with
  | @mk t hw _ ih =>
    obtain ⟨head, args⟩ := t
    cases args with
    | nil =>
      have hspells := Spells.name blank_nil hw blank_nil
      simpa [text] using hspells
    | cons arg args =>
      obtain ⟨harg, hargs⟩ := List.forall_mem_cons.1 ih
      have hspells := Spells.apply blank_nil hw blank_nil (harg.textTail hargs) blank_nil
      simpa [text] using hspells

theorem Worded.derives_text (h : Worded t) : Derives t.text t :=
  ⟨t.text.toList, [], by simp, h.spells_text, blank_nil⟩

theorem Legible.read_text (h : Legible t) : read t.text = .ok t :=
  read_of_derives h.worded.derives_text h.nesting_le

/-- A legible term is read back from its text. What is read is legible, so its text is a normal form
of all texts that are read as it. -/
theorem text_normal_form :
    (∀ t, Legible t → read t.text = .ok t) ∧
    (∀ s t, read s = .ok t → Legible t ∧ read t.text = .ok t) ∧
    ∀ s s' t t', read s = .ok t → read s' = .ok t' → (t = t' ↔ t.text = t'.text) := by
  refine ⟨fun t h => h.read_text, fun s t h => ?_, fun s s' t t' h h' => ?_⟩
  · have hl := legible_of_read h
    exact ⟨hl, hl.read_text⟩
  · constructor
    · rintro rfl
      rfl
    · intro heq
      have hread := (legible_of_read h).read_text
      rw [heq, (legible_of_read h').read_text] at hread
      exact (Except.ok.inj hread).symm

/-- White space is lost where it may stand, and kept after commas. -/
theorem text_normal_form_pair :
    read " Pair <A,B< é > >" = .ok ⟨"Pair", [⟨"A", []⟩, ⟨"B", [⟨"é", []⟩]⟩]⟩ ∧
    read "Pair<A, B<é>>" = .ok ⟨"Pair", [⟨"A", []⟩, ⟨"B", [⟨"é", []⟩]⟩]⟩ := by
  have hread : read " Pair <A,B< é > >" =
      .ok ⟨"Pair", [⟨"A", []⟩, ⟨"B", [⟨"é", []⟩]⟩]⟩ := by decide +kernel
  exact ⟨hread, (text_normal_form.2.1 _ _ hread).2⟩

end Typewire.TypeTerm
