import Mathlib.Tactic.Common
import Typewire.Json.Reader

/-! # Valid documents

What a text can be read as: members are in the order of their names, doubles are finite, and whole
numbers fit a word of 64 bits, signed or unsigned.
-/

namespace Typewire

namespace Json

inductive Valid : Json → Prop
  | null : Valid null
  | bool (b : Bool) : Valid (bool b)
  | int {i : Int} : -(1 <<< 63) ≤ i → i < 1 <<< 64 → Valid (int i)
  | real {x : Binary64} : x.isFinite = true → Valid (real x)
  | str (s : String) : Valid (str s)
  | arr {items : List Json} : (∀ j ∈ items, Valid j) → Valid (arr items)
  | obj {members : List (String × Json)} : Members.Sorted members →
      (∀ entry ∈ members, Valid entry.2) → Valid (obj members)

/-- There is no null in the document, at any depth. -/
inductive NullFree : Json → Prop
  | leaf {j : Json} : j.depth = 0 → j.isNull = false → NullFree j
  | arr {items : List Json} : (∀ j ∈ items, NullFree j) → NullFree (arr items)
  | obj {members : List (String × Json)} : (∀ entry ∈ members, NullFree entry.2) →
      NullFree (obj members)

variable {j : Json} {js : List Json} {ms : List (String × Json)}

theorem Valid.items (h : (Json.arr js).Valid) : ∀ j ∈ js, j.Valid := by
  cases h with
  | arr h => exact h

theorem Valid.sorted (h : (Json.obj ms).Valid) : Members.Sorted ms := by
  cases h with
  | obj h _ => exact h

theorem Valid.members (h : (Json.obj ms).Valid) : ∀ entry ∈ ms, entry.2.Valid := by
  cases h with
  | obj _ h => exact h

theorem NullFree.isNull (h : j.NullFree) : j.isNull = false := by
  cases h with
  | leaf _ h => exact h
  | arr | obj => rfl

theorem NullFree.items (h : (Json.arr js).NullFree) : ∀ j ∈ js, j.NullFree := by
  cases h with
  | leaf h => simp [depth] at h
  | arr h => exact h

theorem NullFree.members (h : (Json.obj ms).NullFree) : ∀ entry ∈ ms, entry.2.NullFree := by
  cases h with
  | leaf h => simp [depth] at h
  | obj h => exact h

theorem depthItems_le {n : Nat} (h : ∀ j ∈ js, j.depth ≤ n) : depthItems js ≤ n := by
  induction js with
  | nil => exact Nat.zero_le _
  | cons j js ih =>
    obtain ⟨hj, hjs⟩ := List.forall_mem_cons.1 h
    exact Nat.max_le.2 ⟨hj, ih hjs⟩

theorem depthMembers_le {n : Nat} (h : ∀ entry ∈ ms, entry.2.depth ≤ n) :
    depthMembers ms ≤ n := by
  induction ms with
  | nil => exact Nat.zero_le _
  | cons e ms ih =>
    obtain ⟨he, hms⟩ := List.forall_mem_cons.1 h
    exact Nat.max_le.2 ⟨he, ih hms⟩

end Json

namespace Document

/-- What the tree stands for is valid. -/
def Clean (d : Document) : Prop := ∀ room j, d.toJson? room = some j → j.Valid

theorem clean_broken : broken.Clean := fun room j h => by
  rw [toJson?] at h
  cases h

theorem clean_null : null.Clean := fun room j h => by
  rw [toJson?] at h
  cases h
  exact .null

theorem clean_bool (b : Bool) : (bool b).Clean := fun room j h => by
  rw [toJson?] at h
  cases h
  exact .bool b

theorem clean_text (s : String) : (text s).Clean := fun room j h => by
  rw [toJson?] at h
  cases h
  exact .str s

theorem clean_int {i : Int} (hmin : -(1 <<< 63) ≤ i) (hmax : i < 1 <<< 64) : (int i).Clean :=
  fun room j h => by
    rw [toJson?] at h
    cases h
    exact .int hmin hmax

theorem clean_realValue (x : Binary64) : (Json.realValue x).Clean := by
  rw [Json.realValue]
  split
  · intro room j h
    rw [toJson?] at h
    cases h
    exact .real ‹_›
  · exact clean_broken

theorem valid_of_toJsonItems? {room : Nat} {ds : List Document} {js : List Json}
    (hd : ∀ d ∈ ds, d.Clean) (h : toJsonItems? room ds = some js) : ∀ j ∈ js, j.Valid := by
  induction ds generalizing js with
  | nil =>
    rw [toJsonItems?] at h
    cases h
    exact fun j hj => by cases hj
  | cons d ds ih =>
    rw [toJsonItems?] at h
    obtain ⟨j, hj, h⟩ := Option.bind_eq_some_iff.1 h
    obtain ⟨rest, hrest, h⟩ := Option.bind_eq_some_iff.1 h
    cases h
    obtain ⟨hclean, hd⟩ := List.forall_mem_cons.1 hd
    exact List.forall_mem_cons.2 ⟨hclean room j hj, ih hd hrest⟩

theorem clean_list {ds : List Document} (hd : ∀ d ∈ ds, d.Clean) : (list ds).Clean := by
  intro room j h
  rw [toJson?] at h
  split at h
  · cases h
  · obtain ⟨js, hjs, rfl⟩ := Option.map_eq_some_iff.1 h
    exact .arr (valid_of_toJsonItems? hd hjs)

theorem valid_of_toJsonMembers? {room : Nat} {ds : List (String × Document)}
    {ms : List (String × Json)} (hd : ∀ e ∈ ds, e.2.Clean) (h : toJsonMembers? room ds = some ms) :
    ∀ e ∈ ms, e.2.Valid := by
  induction ds generalizing ms with
  | nil =>
    rw [toJsonMembers?] at h
    cases h
    exact fun e he => by cases he
  | cons d ds ih =>
    obtain ⟨name, d⟩ := d
    rw [toJsonMembers?] at h
    obtain ⟨j, hj, h⟩ := Option.bind_eq_some_iff.1 h
    obtain ⟨rest, hrest, h⟩ := Option.bind_eq_some_iff.1 h
    cases h
    obtain ⟨hclean, hd⟩ := List.forall_mem_cons.1 hd
    exact List.forall_mem_cons.2 ⟨hclean room j hj, ih hd hrest⟩

theorem clean_table {ds : List (String × Document)} (hd : ∀ e ∈ ds, e.2.Clean) :
    (table ds).Clean := by
  intro room j h
  rw [toJson?] at h
  split at h
  · cases h
  · obtain ⟨ms, hms, rfl⟩ := Option.map_eq_some_iff.1 h
    exact .obj (Members.sorted_ofList ms) fun e he =>
      valid_of_toJsonMembers? hd hms e (Members.mem_ofList he)

mutual

theorem depth_le_of_toJson? {room : Nat} {d : Document} {j : Json} (h : toJson? room d = some j) :
    j.depth ≤ room := by
  cases d with
  | list items =>
    rw [toJson?] at h
    split at h
    · cases h
    · obtain ⟨js, hjs, rfl⟩ := Option.map_eq_some_iff.1 h
      have hdepth := depth_le_of_toJsonItems? hjs
      rw [Json.depth]
      omega
  | table members =>
    rw [toJson?] at h
    split at h
    · cases h
    · obtain ⟨ms, hms, rfl⟩ := Option.map_eq_some_iff.1 h
      have hdepth := Json.depthMembers_le fun e he =>
        depth_le_of_toJsonMembers? hms e (Members.mem_ofList he)
      rw [Json.depth]
      omega
  | broken =>
    rw [toJson?] at h
    cases h
  | null | bool | int | real | text =>
    rw [toJson?] at h
    cases h
    exact Nat.zero_le _

theorem depth_le_of_toJsonItems? {room : Nat} {ds : List Document} {js : List Json}
    (h : toJsonItems? room ds = some js) : Json.depthItems js ≤ room := by
  cases ds with
  | nil =>
    rw [toJsonItems?] at h
    cases h
    exact Nat.zero_le _
  | cons d ds =>
    rw [toJsonItems?] at h
    obtain ⟨j, hj, h⟩ := Option.bind_eq_some_iff.1 h
    obtain ⟨rest, hrest, h⟩ := Option.bind_eq_some_iff.1 h
    cases h
    exact Nat.max_le.2 ⟨depth_le_of_toJson? hj, depth_le_of_toJsonItems? hrest⟩

theorem depth_le_of_toJsonMembers? {room : Nat} {ds : List (String × Document)}
    {ms : List (String × Json)} (h : toJsonMembers? room ds = some ms) :
    ∀ e ∈ ms, e.2.depth ≤ room := by
  cases ds with
  | nil =>
    rw [toJsonMembers?] at h
    cases h
    exact fun e he => by cases he
  | cons d ds =>
    obtain ⟨name, d⟩ := d
    rw [toJsonMembers?] at h
    obtain ⟨j, hj, h⟩ := Option.bind_eq_some_iff.1 h
    obtain ⟨rest, hrest, h⟩ := Option.bind_eq_some_iff.1 h
    cases h
    exact List.forall_mem_cons.2 ⟨depth_le_of_toJson? hj, depth_le_of_toJsonMembers? hrest⟩

end

end Document

namespace Json

section Lexemes

theorem clean_wholeValue (negative : Bool) (n : Nat) : (wholeValue negative n).Clean := by
  unfold wholeValue
  split
  · split
    · rename_i hn
      have h63 : (1 : Nat) <<< 63 = 9223372036854775808 := rfl
      have h63' : (1 : Int) <<< 63 = 9223372036854775808 := rfl
      have h64' : (1 : Int) <<< 64 = 18446744073709551616 := rfl
      exact Document.clean_int (by omega) (by omega)
    · exact Document.clean_realValue _
  · split
    · rename_i hn
      have h63' : (1 : Int) <<< 63 = 9223372036854775808 := rfl
      have h64' : (1 : Int) <<< 64 = 18446744073709551616 := rfl
      have hsize : UInt64.size = 18446744073709551616 := rfl
      exact Document.clean_int (by omega) (by omega)
    · exact Document.clean_realValue _

theorem clean_numberValue? {cs : List Char} {d : Document} (h : numberValue? cs = some d) :
    d.Clean := by
  simp only [numberValue?] at h
  -- What is left after the sign is read in the same way for both signs.
  split at h <;> split at h
  case isTrue => cases h
  case isTrue => cases h
  all_goals
    obtain ⟨⟨frac, rest⟩, -, h⟩ := Option.bind_eq_some_iff.1 h
    obtain ⟨e, -, h⟩ := Option.bind_eq_some_iff.1 h
    split at h <;> cases h
    · exact clean_wholeValue _ _
    · exact Document.clean_realValue _

theorem clean_wordValue? {word : List Char} {d : Document} (h : wordValue? word = some d) :
    d.Clean := by
  unfold wordValue? at h
  split at h
  · cases h
    exact Document.clean_null
  · split at h
    · cases h
      exact Document.clean_bool true
    · split at h
      · cases h
        exact Document.clean_bool false
      · cases h

theorem clean_textValue? {body : List Char} {d : Document} (h : textValue? body = some d) :
    d.Clean := by
  obtain ⟨pieces, -, h⟩ := Option.bind_eq_some_iff.1 h
  split at h <;> cases h
  · exact Document.clean_text _
  · exact Document.clean_broken

end Lexemes

section Tokens

def Token.Clean : Token → Prop
  | .leaf value => value.Clean
  | _ => True

theorem clean_start? {c : Char} {tokens : List Token} {state : LexState}
    (h : start? c = some (tokens, state)) : ∀ token ∈ tokens, token.Clean := by
  have hpunctuation : ∀ token, punctuation? c = some token → token.Clean := by
    intro token ht
    unfold punctuation? at ht
    split at ht <;> cases ht <;> trivial
  unfold start? at h
  split at h
  · cases h
    exact fun token ht => by cases ht
  split at h
  · cases h
    exact fun token ht => by cases ht
  split at h
  · cases h
    exact fun token ht => by cases ht
  split at h
  · cases h
    exact fun token ht => by cases ht
  obtain ⟨token, ht, h⟩ := Option.map_eq_some_iff.1 h
  cases h
  exact List.forall_mem_singleton.2 (hpunctuation token ht)

theorem clean_lexStep? {c : Char} {state next : LexState} {tokens : List Token}
    (h : lexStep? c state = some (tokens, next)) : ∀ token ∈ tokens, token.Clean := by
  cases state with
  | between => exact clean_start? h
  | inText reversed escaped =>
    rw [lexStep?] at h
    split at h
    · obtain ⟨value, hv, h⟩ := Option.map_eq_some_iff.1 h
      cases h
      exact List.forall_mem_singleton.2 (clean_textValue? hv)
    · cases h
      exact fun token ht => by cases ht
  | inNumber reversed =>
    rw [lexStep?] at h
    split at h
    · cases h
      exact fun token ht => by cases ht
    -- A number ends with the first character after it, which may be a token of its own.
    · obtain ⟨value, hv, h⟩ := Option.bind_eq_some_iff.1 h
      obtain ⟨⟨rest, state⟩, hrest, h⟩ := Option.bind_eq_some_iff.1 h
      cases h
      exact List.forall_mem_cons.2 ⟨clean_numberValue? hv, clean_start? hrest⟩
  | inWord reversed =>
    rw [lexStep?] at h
    split at h
    · cases h
      exact fun token ht => by cases ht
    · obtain ⟨value, hv, h⟩ := Option.bind_eq_some_iff.1 h
      obtain ⟨⟨rest, state⟩, hrest, h⟩ := Option.bind_eq_some_iff.1 h
      cases h
      exact List.forall_mem_cons.2 ⟨clean_wordValue? hv, clean_start? hrest⟩

theorem clean_lexFinish? {state : LexState} {tokens : List Token}
    (h : lexFinish? state = some tokens) : ∀ token ∈ tokens, token.Clean := by
  cases state with
  | between =>
    cases h
    exact fun token ht => by cases ht
  | inText => cases h
  | inNumber reversed =>
    obtain ⟨value, hv, rfl⟩ := Option.map_eq_some_iff.1 h
    exact List.forall_mem_singleton.2 (clean_numberValue? hv)
  | inWord reversed =>
    obtain ⟨value, hv, rfl⟩ := Option.map_eq_some_iff.1 h
    exact List.forall_mem_singleton.2 (clean_wordValue? hv)

theorem clean_lex? {done tokens : List Token} {state : LexState} {cs : List Char}
    (hdone : ∀ token ∈ done, token.Clean) (h : lex? done state cs = some tokens) :
    ∀ token ∈ tokens, token.Clean := by
  induction cs generalizing done state with
  | nil =>
    obtain ⟨last, hlast, rfl⟩ := Option.map_eq_some_iff.1 h
    intro token ht
    rcases List.mem_append.1 ht with ht | ht
    · exact hdone token (List.mem_reverse.1 ht)
    · exact clean_lexFinish? hlast token ht
  | cons c cs ih =>
    rw [lex?] at h
    split at h
    · cases h
    · rename_i more next hstep
      refine ih (fun token ht => ?_) h
      rcases List.mem_append.1 ht with ht | ht
      · exact clean_lexStep? hstep token (List.mem_reverse.1 ht)
      · exact hdone token ht

end Tokens

section Trees

def Frame.Clean : Frame → Prop
  | .list done => ∀ d ∈ done, d.Clean
  | .member table _ => ∀ e ∈ table.done, e.2.Clean

namespace ReaderState

def Clean : ReaderState → Prop
  | expectValue frames => ∀ frame ∈ frames, frame.Clean
  | expectItem frames => ∀ frame ∈ frames, frame.Clean
  | expectName table _ frames =>
    (∀ e ∈ table.done, e.2.Clean) ∧ ∀ frame ∈ frames, frame.Clean
  | expectColon table _ frames =>
    (∀ e ∈ table.done, e.2.Clean) ∧ ∀ frame ∈ frames, frame.Clean
  | complete value frames => value.Clean ∧ ∀ frame ∈ frames, frame.Clean

theorem clean_close {table : OpenTable} (h : ∀ e ∈ table.done, e.2.Clean) : table.close.Clean := by
  rw [OpenTable.close]
  split
  · exact Document.clean_table fun e he => h e (List.mem_reverse.1 he)
  · exact Document.clean_broken

theorem clean_stepValue {frames : List Frame} {token : Token} {next : ReaderState}
    (hf : ∀ frame ∈ frames, frame.Clean) (ht : token.Clean)
    (h : stepValue frames token = some next) : next.Clean := by
  unfold stepValue at h
  split at h <;> cases h
  · exact hf
  · exact ⟨fun e he => (by cases he), hf⟩
  · exact ⟨ht, hf⟩

theorem clean_step {state next : ReaderState} {token : Token} (hs : state.Clean)
    (ht : token.Clean) (h : state.step token = some next) : next.Clean := by
  unfold step at h
  split at h
  · exact clean_stepValue hs ht h
  · cases h
    exact ⟨Document.clean_list fun d hd => (by cases hd), hs⟩
  · have hempty : (Frame.list []).Clean := fun d hd => by cases hd
    exact clean_stepValue (List.forall_mem_cons.2 ⟨hempty, hs⟩) ht h
  · split at h <;> cases h
    exact ⟨clean_close hs.1, hs.2⟩
  · cases h
    exact hs
  · cases h
    exact hs
  · cases h
  · cases h
    exact List.forall_mem_cons.2 hs
  · cases h
  · cases h
    obtain ⟨hlist, hf⟩ := List.forall_mem_cons.1 hs.2
    exact List.forall_mem_cons.2 ⟨List.forall_mem_cons.2 ⟨hs.1, hlist⟩, hf⟩
  · cases h
    obtain ⟨hlist, hf⟩ := List.forall_mem_cons.1 hs.2
    refine ⟨Document.clean_list fun d hd => ?_, hf⟩
    exact List.forall_mem_cons.2 ⟨hs.1, hlist⟩ d (List.mem_reverse.1 hd)
  · cases h
    obtain ⟨htable, hf⟩ := List.forall_mem_cons.1 hs.2
    exact ⟨List.forall_mem_cons.2 ⟨hs.1, htable⟩, hf⟩
  · cases h
    obtain ⟨htable, hf⟩ := List.forall_mem_cons.1 hs.2
    exact ⟨clean_close (List.forall_mem_cons.2 ⟨hs.1, htable⟩), hf⟩
  · cases h

theorem clean_run {state : ReaderState} {tokens : List Token} {d : Document} (hs : state.Clean)
    (ht : ∀ token ∈ tokens, token.Clean) (h : state.run tokens = some d) : d.Clean := by
  induction tokens generalizing state with
  | nil =>
    unfold run at h
    split at h
    · cases h
      exact hs.1
    · cases h
    · rename_i heq
      cases heq
  | cons token tokens ih =>
    obtain ⟨htoken, ht⟩ := List.forall_mem_cons.1 ht
    rw [run] at h
    split at h
    · cases h
    · rename_i next hstep
      exact ih (clean_step hs htoken hstep) ht h

end ReaderState

theorem depth_le_of_read? {s : String} {j : Json} (h : read? s = some j) : j.depth ≤ maxDepth := by
  obtain ⟨d, -, hj⟩ := Option.bind_eq_some_iff.1 h
  exact Document.depth_le_of_toJson? hj

/-- Documents that are read are valid. -/
theorem valid_of_read? {s : String} {j : Json} (h : read? s = some j) : j.Valid := by
  obtain ⟨d, hd, hj⟩ := Option.bind_eq_some_iff.1 h
  obtain ⟨tokens, ht, hrun⟩ := Option.bind_eq_some_iff.1 hd
  have htokens := clean_lex? (fun token ht => by cases ht) ht
  have hbegin : (ReaderState.expectValue []).Clean := fun frame hf => by cases hf
  exact ReaderState.clean_run hbegin htokens hrun maxDepth j hj

end Trees

end Json

end Typewire
