import Typewire.Proofs.TypeTerm.Grammar

/-! # Moves of the reader

What the reader does at a character that it does not refuse, what stops it, and that there is a way
on from each of its states to the end of a term.
-/

namespace Typewire.TypeTerm

open Text

namespace ReaderState

def stack : ReaderState → List Frame
  | beforeName frames => frames
  | inName _ frames => frames
  | afterName _ frames => frames
  | afterTerm _ frames => frames

/-- A name ends here, unless more of it follows. -/
inductive Named : TypeName → List Frame → ReaderState → Prop
  | reading (reversed : List Char) (frames : List Frame) :
      Named (.ofList reversed.reverse) frames (.inName reversed frames)
  | past (name : TypeName) (frames : List Frame) : Named name frames (.afterName name frames)

/-- A term ends here, unless more of it follows. -/
inductive Complete : TypeTerm → List Frame → ReaderState → Prop
  | name {name : TypeName} {frames : List Frame} {state : ReaderState} :
      Named name frames state → Complete ⟨name, []⟩ frames state
  | term (term : TypeTerm) (frames : List Frame) : Complete term frames (.afterTerm term frames)

inductive Move : Char → ReaderState → ReaderState → Prop
  | skip {c : Char} {frames : List Frame} : isBlank c = true →
      Move c (.beforeName frames) (.beforeName frames)
  | start {c : Char} {frames : List Frame} : isPlain c = true →
      Move c (.beforeName frames) (.inName [c] frames)
  | letter {c : Char} {reversed : List Char} {frames : List Frame} : isPlain c = true →
      Move c (.inName reversed frames) (.inName (c :: reversed) frames)
  | endName {c : Char} {name : TypeName} {frames : List Frame} {state : ReaderState} :
      isBlank c = true → Named name frames state → Move c state (.afterName name frames)
  | pass {c : Char} {term : TypeTerm} {frames : List Frame} : isBlank c = true →
      Move c (.afterTerm term frames) (.afterTerm term frames)
  | bracket {name : TypeName} {frames : List Frame} {state : ReaderState} :
      Named name frames state → frames.length ≠ maxOpen →
      Move '<' state (.beforeName (⟨name, []⟩ :: frames))
  | comma {term : TypeTerm} {frame : Frame} {frames : List Frame} {state : ReaderState} :
      Complete term (frame :: frames) state →
      Move ',' state (.beforeName (⟨frame.head, term :: frame.done⟩ :: frames))
  | close {term : TypeTerm} {frame : Frame} {frames : List Frame} {state : ReaderState} :
      Complete term (frame :: frames) state →
      Move '>' state (.afterTerm ⟨frame.head, (term :: frame.done).reverse⟩ frames)

variable {offset : Nat} {c : Char} {name : TypeName} {term : TypeTerm} {frames : List Frame}
  {state next : ReaderState}

section SingleSteps

theorem Named.step_open (h : Named name frames state) :
    step offset '<' state = openBracket name frames offset := by
  cases h <;> rfl

theorem Named.step_blank (h : Named name frames state) (hc : isBlank c = true) :
    step offset c state = .ok (.afterName name frames) := by
  cases h <;> simp [step, hc]

theorem Complete.step_comma (h : Complete term frames state) :
    step offset ',' state = stepAfter term frames offset ',' := by
  cases h with
  | name h => cases h <;> rfl
  | term => rfl

theorem Complete.step_close (h : Complete term frames state) :
    step offset '>' state = stepAfter term frames offset '>' := by
  cases h with
  | name h => cases h <;> rfl
  | term => rfl

theorem move_of_openBracket (hn : Named name frames state)
    (h : openBracket name frames offset = .ok next) : Move '<' state next := by
  unfold openBracket at h
  split at h
  · cases h
  · cases h
    exact .bracket hn ‹_›

theorem move_of_stepAfter (hs : Complete term frames state) (hc : isBlank c = false)
    (h : stepAfter term frames offset c = .ok next) : Move c state next := by
  unfold stepAfter at h
  rw [if_neg (by simp [hc])] at h
  split at h
  · cases h
  · split at h
    · cases h
      subst_vars
      exact .comma hs
    · split at h
      · cases h
        subst_vars
        exact .close hs
      · cases h

theorem move_of_step (h : step offset c state = .ok next) : Move c state next := by
  cases state with
  | beforeName frames =>
    simp only [step] at h
    split at h
    · cases h
      exact .skip ‹_›
    · split at h
      · cases h
      · cases h
        exact .start (isPlain_iff.2 (by simp_all))
  | inName reversed frames =>
    have hn := Named.reading reversed frames
    simp only [step] at h
    split at h
    · cases h
      exact .endName ‹_› hn
    · split at h
      · subst_vars
        exact move_of_openBracket hn h
      · split at h
        · exact move_of_stepAfter (.name hn) (by simp_all) h
        · cases h
          exact .letter (isPlain_iff.2 (by simp_all))
  | afterName name frames =>
    have hn := Named.past name frames
    simp only [step] at h
    split at h
    · cases h
      exact .endName ‹_› hn
    · split at h
      · subst_vars
        exact move_of_openBracket hn h
      · exact move_of_stepAfter (.name hn) (by simp_all) h
  | afterTerm term frames =>
    by_cases hc : isBlank c = true
    · simp only [step, stepAfter, hc, if_true] at h
      cases h
      exact .pass hc
    · exact move_of_stepAfter (.term term frames) (by simpa using hc) h

theorem Move.step_eq (h : Move c state next) : step offset c state = .ok next := by
  cases h with
  | skip hc => simp [step, hc]
  | start hc =>
    obtain ⟨hb, hd⟩ := isPlain_iff.1 hc
    simp [step, hb, hd]
  | letter hc =>
    obtain ⟨hb, hd⟩ := isPlain_iff.1 hc
    have hne : c ≠ '<' := by
      rintro rfl
      cases hd
    simp [step, hb, hd, hne]
  | endName hc hn => exact hn.step_blank hc
  | pass hc => simp [step, stepAfter, hc]
  | bracket hn hlen =>
    rw [hn.step_open, openBracket, if_neg hlen]
  | comma hs =>
    rw [hs.step_comma]
    rfl
  | close hs =>
    rw [hs.step_close]
    rfl

theorem step_eq_ok_iff : step offset c state = .ok next ↔ Move c state next :=
  ⟨move_of_step, Move.step_eq⟩

theorem Move.eq_of_move {next' : ReaderState} (h : Move c state next) (h' : Move c state next') :
    next = next' := by
  have hstep : step 0 c state = .ok next := h.step_eq
  exact Except.ok.inj (hstep.symm.trans h'.step_eq)

theorem openBracket_error {e : TermError} (h : openBracket name frames offset = .error e) :
    e = .tooDeep offset := by
  unfold openBracket at h
  split at h
  · cases h
    rfl
  · cases h

theorem stepAfter_error {e : TermError} (h : stepAfter term frames offset c = .error e) :
    e = .unexpected c offset := by
  unfold stepAfter at h
  split at h
  · cases h
  · split at h
    · cases h
      rfl
    · repeat' split at h
      all_goals cases h
      rfl

theorem step_error {e : TermError} (h : step offset c state = .error e) :
    e = .emptyName offset ∨ e = .tooDeep offset ∨ e = .unexpected c offset := by
  cases state with
  | beforeName frames =>
    simp only [step] at h
    split at h
    · cases h
    · split at h
      · cases h
        exact .inl rfl
      · cases h
  | inName reversed frames =>
    simp only [step] at h
    split at h
    · cases h
    · split at h
      · exact .inr (.inl (openBracket_error h))
      · split at h
        · exact .inr (.inr (stepAfter_error h))
        · cases h
  | afterName name frames =>
    simp only [step] at h
    split at h
    · cases h
    · split at h
      · exact .inr (.inl (openBracket_error h))
      · exact .inr (.inr (stepAfter_error h))
  | afterTerm term frames => exact .inr (.inr (stepAfter_error h))

theorem finish_eq_ok_iff : finish offset state = .ok term ↔ Complete term [] state := by
  constructor
  · intro h
    cases state with
    | beforeName frames => cases h
    | inName reversed frames =>
      cases frames <;> cases h
      exact .name (.reading reversed [])
    | afterName name frames =>
      cases frames <;> cases h
      exact .name (.past name [])
    | afterTerm term frames =>
      cases frames <;> cases h
      exact .term term []
  · intro h
    cases h with
    | name h => cases h <;> rfl
    | term => rfl

theorem finish_error {e : TermError} (h : finish offset state = .error e) :
    e = .unclosed ∨ e = .emptyName offset := by
  cases state with
  | beforeName frames =>
    cases h
    exact .inr rfl
  | inName reversed frames | afterName name frames | afterTerm term frames =>
    cases frames <;> cases h
    exact .inl rfl

theorem Named.stack_eq (h : Named name frames state) : state.stack = frames := by
  cases h <;> rfl

theorem Complete.stack_eq (h : Complete term frames state) : state.stack = frames := by
  cases h with
  | name h => exact h.stack_eq
  | term => rfl

/-- Brackets open and close at bracket characters alone, and the last that may be open at one time
is the last that opens. -/
theorem Move.stack_cases (h : Move c state next) :
    (c ≠ '<' ∧ c ≠ '>' ∧ next.stack.length = state.stack.length) ∨
    (c = '<' ∧ state.stack.length ≠ maxOpen ∧ next.stack.length = state.stack.length + 1) ∨
    (c = '>' ∧ state.stack.length = next.stack.length + 1) := by
  have hother : isBlank c = true ∨ isPlain c = true → c ≠ '<' ∧ c ≠ '>' := by
    rintro (hc | hc)
    all_goals constructor <;> rintro rfl <;> cases hc
  cases h with
  | skip hc | pass hc =>
    obtain ⟨hopen, hclose⟩ := hother (.inl hc)
    exact .inl ⟨hopen, hclose, rfl⟩
  | start hc | letter hc =>
    obtain ⟨hopen, hclose⟩ := hother (.inr hc)
    exact .inl ⟨hopen, hclose, rfl⟩
  | endName hc hn =>
    obtain ⟨hopen, hclose⟩ := hother (.inl hc)
    exact .inl ⟨hopen, hclose, by rw [hn.stack_eq]; rfl⟩
  | bracket hn hlen => exact .inr (.inl ⟨rfl, by rwa [hn.stack_eq], by rw [hn.stack_eq]; rfl⟩)
  | comma hs => exact .inl ⟨by decide, by decide, by rw [hs.stack_eq]; rfl⟩
  | close hs => exact .inr (.inr ⟨rfl, by rw [hs.stack_eq]; rfl⟩)

end SingleSteps

section Runs

inductive Moves : List Char → ReaderState → ReaderState → Prop
  | refl (state : ReaderState) : Moves [] state state
  | cons {c : Char} {cs : List Char} {state mid next : ReaderState} : Move c state mid →
      Moves cs mid next → Moves (c :: cs) state next

variable {cs cs' : List Char} {mid : ReaderState}

theorem Move.moves (h : Move c state next) : Moves [c] state next := .cons h (.refl next)

theorem Moves.append (h : Moves cs state mid) (h' : Moves cs' mid next) :
    Moves (cs ++ cs') state next := by
  induction h with
  | refl => exact h'
  | cons hm _ ih => exact .cons hm (ih h')

theorem Moves.exists_of_append (h : Moves (cs ++ cs') state next) :
    ∃ mid, Moves cs state mid ∧ Moves cs' mid next := by
  induction cs generalizing state with
  | nil => exact ⟨state, .refl state, h⟩
  | cons c cs ih =>
    cases h with
    | cons hm h =>
      obtain ⟨mid, hleft, hright⟩ := ih h
      exact ⟨mid, .cons hm hleft, hright⟩

theorem Moves.eq_of_moves {next' : ReaderState} (h : Moves cs state next)
    (h' : Moves cs state next') : next = next' := by
  induction h with
  | refl =>
    cases h'
    rfl
  | cons hm _ ih =>
    cases h' with
    | cons hm' h' =>
      obtain rfl := hm.eq_of_move hm'
      exact ih h'

/-- What each move keeps up, the run keeps up for all of the text so far. -/
theorem Moves.induction {P : List Char → ReaderState → Prop}
    (hstep : ∀ p c state next, P p state → Move c state next → P (p ++ [c]) next)
    {p : List Char} (h : Moves cs state next) (hp : P p state) : P (p ++ cs) next := by
  induction h generalizing p with
  | refl => rwa [List.append_nil]
  | @cons c cs state mid next hm _ ih =>
    have hmid := ih (hstep p c state mid hp hm)
    rwa [List.append_assoc] at hmid

theorem run_eq_ok_iff :
    run offset state cs = .ok term ↔ ∃ last, Moves cs state last ∧ Complete term [] last := by
  induction cs generalizing offset state with
  | nil =>
    rw [run, finish_eq_ok_iff]
    constructor
    · exact fun h => ⟨state, .refl state, h⟩
    · rintro ⟨last, hm, hc⟩
      cases hm
      exact hc
  | cons c cs ih =>
    rw [run]
    constructor
    · intro h
      split at h
      · cases h
      · rename_i mid hs
        obtain ⟨last, hm, hc⟩ := ih.1 h
        exact ⟨last, .cons (step_eq_ok_iff.1 hs) hm, hc⟩
    · rintro ⟨last, hm, hc⟩
      cases hm with
      | cons hmove hm =>
        rw [step_eq_ok_iff.2 hmove]
        exact ih.2 ⟨last, hm, hc⟩

theorem run_error {e : TermError} (h : run offset state cs = .error e) :
    (∃ last, Moves cs state last ∧
      finish (offset + (String.ofList cs).utf8ByteSize) last = .error e) ∨
    ∃ p c rest last, cs = p ++ c :: rest ∧ Moves p state last ∧
      step (offset + (String.ofList p).utf8ByteSize) c last = .error e := by
  induction cs generalizing offset state with
  | nil => exact .inl ⟨state, .refl state, h⟩
  | cons c cs ih =>
    rw [run] at h
    split at h
    · rename_i hs
      cases h
      exact .inr ⟨[], c, cs, state, rfl, .refl state, hs⟩
    · rename_i mid hs
      have hmove := step_eq_ok_iff.1 hs
      have hsize : ∀ p : List Char, offset + (String.ofList (c :: p)).utf8ByteSize =
          offset + c.utf8Size + (String.ofList p).utf8ByteSize := by
        intro p
        have hcons : String.ofList (c :: p) = .singleton c ++ .ofList p :=
          String.toList_inj.1 (by simp)
        rw [hcons, String.utf8ByteSize_append, String.utf8ByteSize_singleton, Nat.add_assoc]
      rcases ih h with ⟨last, hm, hf⟩ | ⟨p, d, rest, last, rfl, hm, hf⟩
      · exact .inl ⟨last, .cons hmove hm, hsize cs ▸ hf⟩
      · exact .inr ⟨c :: p, d, rest, last, rfl, .cons hmove hm, hsize p ▸ hf⟩

end Runs

theorem Complete.exists_pass (h : Complete term frames state) (hb : Blank cs) :
    ∃ next, Moves cs state next ∧ Complete term frames next := by
  induction cs generalizing state with
  | nil => exact ⟨state, .refl state, h⟩
  | cons c cs ih =>
    obtain ⟨hc, hb⟩ := List.forall_mem_cons.1 hb
    obtain ⟨mid, hm, hmid⟩ : ∃ mid, Move c state mid ∧ Complete term frames mid := by
      cases h with
      | name hn => exact ⟨_, .endName hc hn, .name (.past _ _)⟩
      | term => exact ⟨_, .pass hc, .term _ _⟩
    obtain ⟨next, hms, hnext⟩ := ih hmid hb
    exact ⟨next, .cons hm hms, hnext⟩

theorem moves_blank (frames : List Frame) (hb : Blank cs) :
    Moves cs (.beforeName frames) (.beforeName frames) := by
  induction cs with
  | nil => exact .refl _
  | cons c cs ih =>
    obtain ⟨hc, hb⟩ := List.forall_mem_cons.1 hb
    exact .cons (.skip hc) (ih hb)

theorem moves_letters (frames : List Frame) (reversed : List Char)
    (h : ∀ c ∈ cs, isPlain c = true) :
    Moves cs (.inName reversed frames) (.inName (cs.reverse ++ reversed) frames) := by
  induction cs generalizing reversed with
  | nil => exact .refl _
  | cons c cs ih =>
    obtain ⟨hc, h⟩ := List.forall_mem_cons.1 h
    simpa using Moves.cons (.letter hc) (ih (c :: reversed) h)

theorem Named.exists_pass (h : Named name frames state) (hb : Blank cs) :
    ∃ next, Moves cs state next ∧ Named name frames next := by
  induction cs generalizing state with
  | nil => exact ⟨state, .refl state, h⟩
  | cons c cs ih =>
    obtain ⟨hc, hb⟩ := List.forall_mem_cons.1 hb
    obtain ⟨next, hm, hnext⟩ := ih (.past name frames) hb
    exact ⟨next, .cons (.endName hc h) hm, hnext⟩

theorem exists_named {before name after : List Char} (frames : List Frame) (hb : Blank before)
    (hw : Word name) (ha : Blank after) :
    ∃ next, Moves (before ++ name ++ after) (.beforeName frames) next ∧
      Named (.ofList name) frames next := by
  obtain ⟨hne, hplain⟩ := hw
  obtain ⟨c, cs, rfl⟩ := List.exists_cons_of_ne_nil hne
  obtain ⟨hc, hcs⟩ := List.forall_mem_cons.1 hplain
  have hname := Moves.cons (.start hc) (moves_letters frames [c] hcs)
  have hnamed := Named.reading (cs.reverse ++ [c]) frames
  rw [List.reverse_append, List.reverse_reverse] at hnamed
  obtain ⟨next, hm, hnext⟩ := hnamed.exists_pass ha
  exact ⟨next, ((moves_blank frames hb).append hname).append hm, hnext⟩

theorem Complete.exists_finish (h : Complete term frames state) :
    ∃ rest last t, Moves rest state last ∧ Complete t [] last := by
  induction frames generalizing term state with
  | nil => exact ⟨[], state, term, .refl state, h⟩
  | cons frame frames ih =>
    obtain ⟨rest, last, t, hm, hc⟩ := ih (.term _ frames)
    exact ⟨'>' :: rest, last, t, .cons (.close h) hm, hc⟩

/-- From each state there is a way to the end of a term. -/
theorem exists_finish (state : ReaderState) :
    ∃ rest last t, Moves rest state last ∧ Complete t [] last := by
  cases state with
  | beforeName frames =>
    have hmove : Move 'a' (.beforeName frames) (.inName ['a'] frames) := .start rfl
    obtain ⟨rest, last, t, hm, hc⟩ := (Complete.name (.reading ['a'] frames)).exists_finish
    exact ⟨'a' :: rest, last, t, .cons hmove hm, hc⟩
  | inName reversed frames => exact (Complete.name (.reading reversed frames)).exists_finish
  | afterName name frames => exact (Complete.name (.past name frames)).exists_finish
  | afterTerm term frames => exact (Complete.term term frames).exists_finish

end ReaderState

end Typewire.TypeTerm
