import Mathlib.Data.List.Basic
import Typewire.Proofs.TypeTerm.Moves

/-! # What the reader accepts

The reader accepts the texts of the grammar in which no more brackets are open than it allows. Of
all other texts it says how far they can be the beginning of one.
-/

namespace Typewire

namespace TypeTerm

open Text ReaderState

variable {cs key before name after : List Char} {t : TypeTerm} {ts : List TypeTerm} {frame : Frame}
  {frames : List Frame} {state next : ReaderState}

/-- The text before a key: each frame stands for a name, an open bracket and the arguments up to the
last comma. -/
inductive Opened : List Char → List Frame → Prop
  | nil : Opened [] []
  | bracket {cs before name after : List Char} {frames : List Frame} : Opened cs frames →
      Blank before → Word name → Blank after →
      Opened (cs ++ (before ++ name ++ after ++ ['<'])) (⟨.ofList name, []⟩ :: frames)
  | comma {cs key before : List Char} {t : TypeTerm} {frame : Frame} {frames : List Frame} :
      Opened cs (frame :: frames) → Spells key [t] → Blank before →
      Opened (cs ++ (key ++ before ++ [','])) (⟨frame.head, t :: frame.done⟩ :: frames)

/-- The text before a state. -/
inductive Before : List Char → ReaderState → Prop
  | beforeName {cs before : List Char} {frames : List Frame} : Opened cs frames → Blank before →
      Before (cs ++ before) (.beforeName frames)
  | inName {cs before reversed : List Char} {frames : List Frame} : Opened cs frames →
      Blank before → Word reversed.reverse →
      Before (cs ++ (before ++ reversed.reverse)) (.inName reversed frames)
  | afterName {cs before name after : List Char} {frames : List Frame} : Opened cs frames →
      Blank before → Word name → Blank after →
      Before (cs ++ (before ++ name ++ after)) (.afterName (.ofList name) frames)
  | afterTerm {cs key after : List Char} {t : TypeTerm} {frames : List Frame} : Opened cs frames →
      Spells key [t] → Blank after → Before (cs ++ (key ++ after)) (.afterTerm t frames)

theorem Opened.exists_apply (h : Opened cs (frame :: frames)) (hk : Spells key [t]) :
    ∃ cs' before name after args, Opened cs' frames ∧ Blank before ∧ Word name ∧ Blank after ∧
      frame.head = .ofList name ∧ cs ++ key = cs' ++ (before ++ name ++ after ++ '<' :: args) ∧
      Spells args (t :: frame.done).reverse := by
  generalize hf : frame :: frames = all at h
  induction h generalizing frame key t with
  | nil => cases hf
  | @bracket cs before name after frames' ho hb hn ha =>
    cases hf
    exact ⟨cs, before, name, after, key, ho, hb, hn, ha, rfl, by simp, hk⟩
  | @comma cs key' before t' frame' frames' _ hk' hb ih =>
    cases hf
    obtain ⟨cs', before', name, after, args, ho, hb', hn, ha, hhead, heq, hargs⟩ := ih hk' rfl
    refine ⟨cs', before', name, after, args ++ before ++ ',' :: key, ho, hb', hn, ha, hhead, ?_, ?_⟩
    · calc cs ++ (key' ++ before ++ [',']) ++ key
          = cs ++ key' ++ (before ++ ',' :: key) := by simp
        _ = cs' ++ (before' ++ name ++ after ++ '<' :: (args ++ before ++ ',' :: key)) := by
          rw [heq]
          simp
    · rw [List.reverse_cons]
      exact .comma hargs hb hk

theorem Before.exists_name {typeName : TypeName} (h : Before cs state)
    (hn : Named typeName frames state) : ∃ cs' before name after, Opened cs' frames ∧
      Blank before ∧ Word name ∧ Blank after ∧ typeName = .ofList name ∧
      cs = cs' ++ (before ++ name ++ after) := by
  cases hn with
  | reading reversed frames =>
    cases h with
    | inName ho hb hw => exact ⟨_, _, _, [], ho, hb, hw, blank_nil, rfl, by simp⟩
  | past =>
    cases h with
    | afterName ho hb hw ha => exact ⟨_, _, _, _, ho, hb, hw, ha, rfl, rfl⟩

theorem Before.exists_key (h : Before cs state) (hc : Complete t frames state) :
    ∃ cs' key after, Opened cs' frames ∧ Spells key [t] ∧ Blank after ∧
      cs = cs' ++ (key ++ after) := by
  cases hc with
  | name hn =>
    obtain ⟨cs', before, name, after, ho, hb, hw, ha, rfl, rfl⟩ := h.exists_name hn
    exact ⟨cs', _, [], ho, .name hb hw ha, blank_nil, by simp⟩
  | term =>
    cases h with
    | afterTerm ho hk ha => exact ⟨_, _, _, ho, hk, ha, rfl⟩

theorem Before.move {c : Char} (h : Before cs state) (hm : Move c state next) :
    Before (cs ++ [c]) next := by
  cases hm with
  | skip hc =>
    cases h with
    | beforeName ho hb => exact List.append_assoc .. ▸ .beforeName ho (hb.concat hc)
  | start hc =>
    cases h with
    | @beforeName cs before _ ho hb =>
      have hw : Word [c].reverse := ⟨by simp, by simpa using hc⟩
      simpa using Before.inName ho hb hw
  | @letter _ reversed _ hc =>
    cases h with
    | @inName cs before _ _ ho hb hw =>
      have hw' : Word (c :: reversed).reverse := List.reverse_cons ▸ hw.concat hc
      simpa using Before.inName ho hb hw'
  | endName hc hn =>
    obtain ⟨cs', before, name, after, ho, hb, hw, ha, rfl, rfl⟩ := h.exists_name hn
    simpa using Before.afterName ho hb hw (ha.concat hc)
  | pass hc =>
    cases h with
    | afterTerm ho hk ha => simpa using Before.afterTerm ho hk (ha.concat hc)
  | bracket hn _ =>
    obtain ⟨cs', before, name, after, ho, hb, hw, ha, rfl, rfl⟩ := h.exists_name hn
    simpa using Before.beforeName (ho.bracket hb hw ha) blank_nil
  | comma hc =>
    obtain ⟨cs', key, after, ho, hk, ha, rfl⟩ := h.exists_key hc
    simpa using Before.beforeName (ho.comma hk ha) blank_nil
  | close hc =>
    obtain ⟨cs', key, after, ho, hk, ha, rfl⟩ := h.exists_key hc
    -- With its last argument the innermost bracket is a term.
    obtain ⟨cs₀, before, name, after', args, ho, hb, hw, ha', hhead, heq, hargs⟩ :=
      ho.exists_apply hk
    have hterm := Before.afterTerm ho (.apply hb hw ha' hargs ha) blank_nil
    rw [← List.append_assoc, heq, hhead]
    simpa using hterm

/-- Of the brackets that the text opens so many are still open, and never more than the limit. -/
structure Bracketed (cs : List Char) (state : ReaderState) : Prop where
  opens : OpensAtMost maxOpen cs
  count : cs.count '<' = cs.count '>' + state.stack.length
  limit : state.stack.length ≤ maxOpen

theorem Bracketed.move {c : Char} (h : Bracketed cs state) (hm : Move c state next) :
    Bracketed (cs ++ [c]) next := by
  obtain ⟨hopens, hcount, hlimit⟩ := h
  have hnext : (cs ++ [c]).count '<' = (cs ++ [c]).count '>' + next.stack.length ∧
      next.stack.length ≤ maxOpen := by
    rcases hm.stack_cases with ⟨ho, hc, hlen⟩ | ⟨rfl, hlen, hlen'⟩ | ⟨rfl, hlen⟩
    · simp [ho, hc]
      omega
    · simp
      omega
    · simp
      omega
  refine ⟨fun p hp => ?_, hnext.1, hnext.2⟩
  rcases List.prefix_concat_iff.1 hp with rfl | hp
  · omega
  · exact hopens p hp

theorem before_of_moves (h : Moves cs (.beforeName []) state) :
    Before cs state ∧ Bracketed cs state := by
  have hstart : Before [] (.beforeName []) ∧ Bracketed [] (.beforeName []) := by
    refine ⟨.beforeName .nil blank_nil, fun p hp => ?_, rfl, Nat.zero_le _⟩
    rw [List.prefix_nil.1 hp]
    exact Nat.zero_le _
  exact h.induction (P := fun cs state => Before cs state ∧ Bracketed cs state)
    (fun p c state next hp hm => ⟨hp.1.move hm, hp.2.move hm⟩) hstart

def addArgs (ts : List TypeTerm) : List Frame → List Frame
  | [] => []
  | frame :: frames => ⟨frame.head, ts.reverse ++ frame.done⟩ :: frames

theorem addArgs_nil (frames : List Frame) : addArgs [] frames = frames := by
  cases frames <;> rfl

theorem addArgs_concat (ts : List TypeTerm) (t : TypeTerm) (frame : Frame) (frames : List Frame) :
    addArgs (ts ++ [t]) (frame :: frames) =
      ⟨frame.head, t :: (ts.reverse ++ frame.done)⟩ :: frames := by
  simp [addArgs]

theorem length_addArgs (ts : List TypeTerm) (frames : List Frame) :
    (addArgs ts frames).length = frames.length := by
  cases frames <;> rfl

/-- From the beginning of a key the reader comes to the end of the last of the terms, with those
before it as arguments of the bracket. -/
theorem Spells.exists_moves (h : Spells cs ts) (frames : List Frame)
    (hlimit : frames.length + nestingAll ts ≤ maxOpen) {init : List TypeTerm} {last : TypeTerm}
    (hts : ts = init ++ [last]) (hinit : frames = [] → init = []) :
    ∃ next, Moves cs (.beforeName frames) next ∧ Complete last (addArgs init frames) next := by
  induction h generalizing frames init last with
  | name hb hw ha =>
    obtain ⟨rfl, hlast⟩ := List.append_inj' (show [] ++ [_] = init ++ [last] from hts) rfl
    cases hlast
    obtain ⟨next, hm, hn⟩ := exists_named frames hb hw ha
    rw [addArgs_nil]
    exact ⟨next, hm, .name hn⟩
  | @apply before name after args blanks ts hb hw ha hargs hl ih =>
    obtain ⟨rfl, hlast⟩ := List.append_inj' (show [] ++ [_] = init ++ [last] from hts) rfl
    cases hlast
    rw [nestingAll_singleton, nesting_apply _ hargs.ne_nil] at hlimit
    obtain ⟨init, last, rfl⟩ := (List.eq_nil_or_concat' ts).resolve_left hargs.ne_nil
    obtain ⟨state, hm, hn⟩ := exists_named frames hb hw ha
    -- The arguments open at most as many brackets as they are nested, one less than the term.
    have hopen := Move.bracket hn (by omega)
    obtain ⟨mid, hm', hc⟩ := ih (⟨.ofList name, []⟩ :: frames) (by simp; omega) rfl (by simp)
    obtain ⟨mid', hm'', hc'⟩ := hc.exists_pass hl
    have hclose := Move.close hc'
    refine ⟨_, hm.append (.cons hopen ((hm'.append hm'').append hclose.moves)), ?_⟩
    simp [addArgs_nil]
    exact .term _ _
  | @comma cs before next ts t hcs hb _ ih ih' =>
    obtain ⟨rfl, hlast⟩ := List.append_inj' hts rfl
    cases hlast
    rw [nestingAll_append] at hlimit
    obtain ⟨frame, frames, rfl⟩ := List.exists_cons_of_ne_nil fun he => hcs.ne_nil (hinit he)
    obtain ⟨init, last, rfl⟩ := (List.eq_nil_or_concat' ts).resolve_left hcs.ne_nil
    -- A comma stands inside a bracket, so there is a frame that takes the terms before it.
    obtain ⟨mid, hm, hc⟩ := ih (frame :: frames) (by omega) rfl (by simp)
    obtain ⟨mid', hm', hc'⟩ := hc.exists_pass hb
    have hcomma : Move ',' mid' (.beforeName (addArgs (init ++ [last]) (frame :: frames))) := by
      rw [addArgs_concat]
      exact .comma hc'
    obtain ⟨next, hm'', hn⟩ := ih' (addArgs (init ++ [last]) (frame :: frames))
      (by rw [length_addArgs]; omega) (rfl : [t] = [] ++ [t]) fun _ => rfl
    rw [addArgs_nil] at hn
    exact ⟨next, (hm.append hm').append (.cons hcomma hm''), hn⟩

/-- The text is one term of the grammar, with white space after it. -/
def Derives (s : String) (t : TypeTerm) : Prop :=
  ∃ key last, s.toList = key ++ last ∧ Spells key [t] ∧ Blank last

variable {s : String}

theorem Derives.nesting_le {limit : Nat} (h : Derives s t) (ho : OpensAtMost limit s.toList) :
    nesting t ≤ limit := by
  obtain ⟨key, last, hs, hk, -⟩ := h
  rw [hs] at ho
  rw [← nestingAll_singleton]
  exact OpensAtMost.nestingAll_le (fun p hp => ho p (hp.trans (List.prefix_append _ _))) hk

theorem read_of_derives (h : Derives s t) (hn : nesting t ≤ maxOpen) : read s = .ok t := by
  obtain ⟨key, last, hs, hk, hb⟩ := h
  obtain ⟨mid, hm, hc⟩ := hk.exists_moves [] (by simpa [nestingAll_singleton] using hn)
    (rfl : [t] = [] ++ [t]) fun _ => rfl
  obtain ⟨next, hm', hc'⟩ := hc.exists_pass hb
  exact run_eq_ok_iff.2 ⟨next, hs ▸ hm.append hm', hc'⟩

theorem derives_of_read (h : read s = .ok t) : Derives s t ∧ OpensAtMost maxOpen s.toList := by
  obtain ⟨last, hm, hc⟩ := run_eq_ok_iff.1 h
  obtain ⟨hbefore, hbracketed⟩ := before_of_moves hm
  obtain ⟨cs, key, after, ho, hk, ha, hs⟩ := hbefore.exists_key hc
  cases ho
  exact ⟨⟨key, after, hs, hk, ha⟩, hbracketed.opens⟩

theorem read_eq_ok_iff : read s = .ok t ↔ Derives s t ∧ OpensAtMost maxOpen s.toList := by
  constructor
  · exact derives_of_read
  · rintro ⟨hd, ho⟩
    exact read_of_derives hd (hd.nesting_le ho)

/-- The text is the beginning of one that is read. -/
def Viable (s : String) : Prop := ∃ rest t, read (s ++ rest) = .ok t

theorem viable_iff : Viable s ↔ ∃ state, Moves s.toList (.beforeName []) state := by
  constructor
  · rintro ⟨rest, t, h⟩
    obtain ⟨last, hm, -⟩ := run_eq_ok_iff.1 h
    rw [String.toList_append] at hm
    obtain ⟨mid, hleft, -⟩ := hm.exists_of_append
    exact ⟨mid, hleft⟩
  · rintro ⟨state, hm⟩
    obtain ⟨rest, last, t, hrest, hc⟩ := exists_finish state
    refine ⟨.ofList rest, t, run_eq_ok_iff.2 ⟨last, ?_, hc⟩⟩
    rw [String.toList_append, String.toList_ofList]
    exact hm.append hrest

theorem read_error {e : TermError} (h : read s = .error e) :
    ((∃ state, Moves s.toList (.beforeName []) state) ∧
      (e = .unclosed ∨ e = .emptyName s.utf8ByteSize)) ∨
    ∃ p c rest state, s = p ++ .singleton c ++ rest ∧ Moves p.toList (.beforeName []) state ∧
      step p.utf8ByteSize c state = .error e := by
  rcases run_error h with ⟨last, hm, hf⟩ | ⟨p, c, rest, last, hs, hm, hf⟩
  · rw [String.ofList_toList, Nat.zero_add] at hf
    exact .inl ⟨⟨last, hm⟩, finish_error hf⟩
  · rw [Nat.zero_add] at hf
    refine .inr ⟨.ofList p, c, .ofList rest, last, ?_, by rwa [String.toList_ofList], hf⟩
    apply String.toList_inj.1
    simp [hs]

/-- After a text that it read the reader refuses only what no text that it reads goes on with. -/
theorem not_viable_of_step_error {p : String} {c : Char} {offset : Nat} {e : TermError}
    (hm : Moves p.toList (.beforeName []) state) (h : step offset c state = .error e) :
    ¬Viable (p ++ .singleton c) := by
  rw [viable_iff]
  rintro ⟨next, hm'⟩
  rw [String.toList_append, String.toList_singleton] at hm'
  obtain ⟨mid, hleft, hright⟩ := hm'.exists_of_append
  obtain rfl := hm.eq_of_moves hleft
  cases hright with
  | cons hmove _ =>
    rw [step_eq_ok_iff.2 hmove] at h
    cases h

end TypeTerm

def TermError.offset? : TermError → Option Nat
  | emptyName offset | unexpected _ offset | tooDeep offset => some offset
  | unclosed => none

namespace TypeTerm

open ReaderState

variable {s : String} {e : TermError}

theorem viable_of_atEnd (h : read s = .error e)
    (he : e = .unclosed ∨ e = .emptyName s.utf8ByteSize) : Viable s := by
  rcases read_error h with ⟨hm, -⟩ | ⟨p, c, rest, state, hs, -, hstep⟩
  · exact viable_iff.2 hm
  · exfalso
    -- a character that is refused does not stand at the end
    have hlt : p.utf8ByteSize < s.utf8ByteSize := by
      rw [hs, String.utf8ByteSize_append, String.utf8ByteSize_append,
        String.utf8ByteSize_singleton]
      have hpos := c.utf8Size_pos
      omega
    rcases step_error hstep with rfl | rfl | rfl
    · rcases he with he | he
      · cases he
      · injection he
        omega
    · simp at he
    · simp at he

/-- Where any other text is refused, what stands before is the beginning of one that is read, and
with the character that stands there it no longer is. -/
theorem exists_refused (h : read s = .error e) (he : e ≠ .unclosed)
    (he' : e ≠ .emptyName s.utf8ByteSize) : ∃ p c rest, s = p ++ .singleton c ++ rest ∧
      e.offset? = some p.utf8ByteSize ∧ Viable p ∧ ¬Viable (p ++ .singleton c) ∧
      ∀ found offset, e = .unexpected found offset → found = c := by
  rcases read_error h with ⟨-, hend⟩ | ⟨p, c, rest, state, hs, hm, hstep⟩
  · exact (hend.elim he he').elim
  · refine ⟨p, c, rest, hs, ?_, viable_iff.2 ⟨state, hm⟩, not_viable_of_step_error hm hstep, ?_⟩
    · rcases step_error hstep with rfl | rfl | rfl <;> rfl
    · rintro found offset rfl
      rcases step_error hstep with h | h | h <;> cases h
      rfl

/-- The reader accepts the texts of the grammar in which no more brackets are open than may be, with
the term that they spell. Of a text that ends too soon it says so, and another text it refuses at
the first character that makes it no beginning of a text of the grammar. -/
theorem read_exact (s : String) :
    (∀ t, read s = .ok t ↔ Derives s t ∧ OpensAtMost maxOpen s.toList) ∧
    ∀ e, read s = .error e →
      ((e = .unclosed ∨ e = .emptyName s.utf8ByteSize) → Viable s) ∧
      (e ≠ .unclosed → e ≠ .emptyName s.utf8ByteSize →
        ∃ p c rest, s = p ++ .singleton c ++ rest ∧ e.offset? = some p.utf8ByteSize ∧ Viable p ∧
          ¬Viable (p ++ .singleton c) ∧
          ∀ found offset, e = .unexpected found offset → found = c) := by
  refine ⟨fun t => read_eq_ok_iff, fun e h => ⟨viable_of_atEnd h, exists_refused h⟩⟩

/-- A name after a name is refused where it begins. -/
theorem read_exact_two_names : read "é<B C" = .error (.unexpected 'C' 5) ∧
    ∃ p c rest, "é<B C" = p ++ .singleton c ++ rest ∧ p.utf8ByteSize = 5 ∧ Viable p ∧
      ¬Viable (p ++ .singleton c) ∧ c = 'C' := by
  have hread : read "é<B C" = .error (.unexpected 'C' 5) := by decide +kernel
  obtain ⟨p, c, rest, hs, hoffset, hp, hc, hfound⟩ :=
    ((read_exact "é<B C").2 _ hread).2 (by simp) (by simp)
  exact ⟨hread, p, c, rest, hs, (Option.some.inj hoffset).symm, hp, hc, (hfound _ _ rfl).symm⟩

end TypeTerm

end Typewire
