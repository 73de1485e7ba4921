import Mathlib.Data.List.Basic
import Mathlib.Data.List.TakeWhile
import Typewire.Json.Printer
import Typewire.Proofs.Json.Validity

/-! # Reading what was written

The text of a document without doubles, compact or pretty, is read as the same document, unless more
arrays and objects stand inside one another than the reader takes. The text determines the tokens
and the tokens the tree; only the last step, from the tree to the document, puts members in order
and looks at the depth.
-/

namespace Typewire.Json

inductive RealFree : Json → Prop
  | leaf {j : Json} : j.depth = 0 → (∀ x, j ≠ .real x) → RealFree j
  | arr {items : List Json} : (∀ j ∈ items, RealFree j) → RealFree (arr items)
  | obj {members : List (String × Json)} : (∀ entry ∈ members, RealFree entry.2) →
      RealFree (obj members)

theorem RealFree.ne_real {j : Json} (h : j.RealFree) (x : Binary64) : j ≠ .real x := by
  cases h with
  | leaf _ h => exact h x
  | arr | obj => simp

theorem RealFree.items {js : List Json} (h : (Json.arr js).RealFree) : ∀ j ∈ js, j.RealFree := by
  cases h with
  | leaf h => simp [depth] at h
  | arr h => exact h

theorem RealFree.members {ms : List (String × Json)} (h : (Json.obj ms).RealFree) :
    ∀ entry ∈ ms, entry.2.RealFree := by
  cases h with
  | leaf h => simp [depth] at h
  | obj h => exact h

/-- All numbers in the document are whole and fit a word of 64 bits, signed or unsigned. Members may
stand in any order. -/
inductive Whole : Json → Prop
  | null : Whole null
  | bool (b : Bool) : Whole (bool b)
  | int {i : Int} : -(1 <<< 63) ≤ i → i < 1 <<< 64 → Whole (int i)
  | str (s : String) : Whole (str s)
  | arr {items : List Json} : (∀ j ∈ items, Whole j) → Whole (arr items)
  | obj {members : List (String × Json)} : (∀ entry ∈ members, Whole entry.2) → Whole (obj members)

theorem Valid.whole {j : Json} (hv : j.Valid) (hr : j.RealFree) : j.Whole := by
  induction hv with
  | null => exact .null
  | bool b => exact .bool b
  | int hmin hmax => exact .int hmin hmax
  | real _ => exact absurd rfl (hr.ne_real _)
  | str s => exact .str s
  | arr _ ih => exact .arr fun j hj => ih j hj (hr.items j hj)
  | obj _ _ ih => exact .obj fun entry he => ih entry he (hr.members entry he)

theorem Whole.items {js : List Json} (h : (Json.arr js).Whole) : ∀ j ∈ js, j.Whole := by
  cases h with
  | arr h => exact h

theorem Whole.members {ms : List (String × Json)} (h : (Json.obj ms).Whole) :
    ∀ entry ∈ ms, entry.2.Whole := by
  cases h with
  | obj h => exact h

section Numbers

theorem digitsValue_toDigits (n : Nat) : digitsValue (Nat.toDigits 10 n) = n := by
  have hstep : (fun (n : Nat) (c : Char) => n * 10 + (c.toNat - 48)) =
      fun n c => 10 * n + (c.toNat - '0'.toNat) := by
    funext n c
    rw [Nat.mul_comm]
    rfl
  rw [digitsValue, hstep, ← Nat.ofDigitChars_eq_foldl, Nat.ofDigitChars_ten_toDigits]

theorem isDigit_of_mem_toDigits {n : Nat} {c : Char} (h : c ∈ Nat.toDigits 10 n) :
    c.isDigit = true :=
  Nat.isDigit_of_mem_toDigits (by decide) (by decide) h

theorem splitDigits_toDigits (n : Nat) :
    splitDigits (Nat.toDigits 10 n) = (Nat.toDigits 10 n, []) := by
  have hall : ∀ c ∈ Nat.toDigits 10 n, c.isDigit = true := fun c => isDigit_of_mem_toDigits
  rw [splitDigits, List.takeWhile_eq_self_iff.2 hall, List.dropWhile_eq_nil_iff.2 hall]

theorem head?_toDigits {n : Nat} (hn : 0 < n) : (Nat.toDigits 10 n).head? ≠ some '0' := by
  induction n using Nat.base_induction 10 (by decide) with
  | single m hm =>
    rw [Nat.toDigits_of_lt_base hm, List.head?_cons, ne_eq, Option.some.injEq,
      Nat.digitChar_eq_zero]
    exact Nat.ne_of_gt hn
  | digit m k hk hm ih =>
    rw [← Nat.toDigits_append_toDigits (by decide) hm hk,
      List.head?_append_of_ne_nil _ Nat.toDigits_ne_nil]
    exact ih hm

theorem length_toDigits_le (n : Nat) (h : (Nat.toDigits 10 n).head? = some '0') :
    (Nat.toDigits 10 n).length ≤ 1 := by
  rcases Nat.eq_zero_or_pos n with rfl | hn
  · decide
  · exact absurd h (head?_toDigits hn)

theorem numberValue?_toDigits (n : Nat) :
    numberValue? (Nat.toDigits 10 n) = some (wholeValue false n) := by
  simp only [numberValue?]
  split
  · rename_i he
    have hd := isDigit_of_mem_toDigits (n := n) (c := '-') (he ▸ List.mem_cons_self)
    cases hd
  · simpa [splitDigits_toDigits, fraction?, exponent?, digitsValue_toDigits] using
      length_toDigits_le n

theorem numberValue?_minus (n : Nat) :
    numberValue? ('-' :: Nat.toDigits 10 n) = some (wholeValue true n) := by
  simpa [numberValue?, splitDigits_toDigits, fraction?, exponent?, digitsValue_toDigits] using
    length_toDigits_le n

theorem numberValue?_intChars {i : Int} (hmin : -(1 <<< 63) ≤ i) (hmax : i < 1 <<< 64) :
    numberValue? (intChars i) = some (.int i) := by
  have h63 : (1 : Int) <<< 63 = 9223372036854775808 := rfl
  have h64 : (1 : Int) <<< 64 = 18446744073709551616 := rfl
  have h63' : (1 : Nat) <<< 63 = 9223372036854775808 := rfl
  have hsize : UInt64.size = 18446744073709551616 := rfl
  rw [intChars]
  split
  · rw [numberValue?_minus, wholeValue, if_pos rfl, if_pos (by omega)]
    congr 2
    omega
  · rw [numberValue?_toDigits, wholeValue, if_neg Bool.false_ne_true, if_pos (by omega)]
    congr 2
    omega

end Numbers

section Texts

theorem escapeChar_cases (c : Char) :
    (∃ e, e ≠ 'u' ∧ simpleEscape? e = some c ∧ escapeChar c = ['\\', e]) ∨
      (c.toNat < 0x20 ∧ escapeChar c =
        ['\\', 'u', '0', '0', hexDigit (c.toNat / 16), hexDigit (c.toNat % 16)]) ∨
      c ≠ '"' ∧ c ≠ '\\' ∧ ¬ c.toNat < 0x20 ∧ escapeChar c = [c] := by
  unfold escapeChar
  repeat' split
  all_goals subst_vars
  all_goals first
    | exact .inl ⟨_, by decide, rfl, rfl⟩
    | exact .inr (.inl ⟨‹_›, rfl⟩)
    | exact .inr (.inr ⟨‹_›, ‹_›, ‹_›, rfl⟩)

theorem unitValue?_control : ∀ n < 0x20,
    unitValue? '0' '0' (hexDigit (n / 16)) (hexDigit (n % 16)) = some n := by
  decide

theorem pieces?_escapeChar (c : Char) (cs : List Char) :
    pieces? (escapeChar c ++ cs) = (pieces? cs).map (.plain c :: ·) := by
  rcases escapeChar_cases c with ⟨e, hu, he, h⟩ | ⟨hc, h⟩ | ⟨-, hback, hc, h⟩ <;> rw [h]
  · simp only [List.cons_append, List.nil_append]
    rw [pieces?, he]
    · cases pieces? cs <;> rfl
    · simp [hu]
  · have hrange : ¬ (0xd800 ≤ c.toNat ∧ c.toNat < 0xe000) := by omega
    simp only [List.cons_append, List.nil_append]
    rw [pieces?, unitValue?_control c.toNat hc]
    simp only [Option.bind_eq_bind, Option.bind_some, if_neg hrange, Char.ofNat_toNat]
    cases pieces? cs <;> rfl
  · rw [List.singleton_append, pieces?, if_neg (by simp [hback, hc])]
    · simp [hback]
    · simp [hback]

theorem pieces?_flatMap (cs : List Char) :
    pieces? (cs.flatMap escapeChar) = some (cs.map .plain) := by
  induction cs with
  | nil => rfl
  | cons c cs ih =>
    rw [List.flatMap_cons, pieces?_escapeChar, ih]
    rfl

theorem join?_plain (cs : List Char) : join? (cs.map .plain) = some cs := by
  induction cs with
  | nil => rfl
  | cons c cs ih =>
    rw [List.map_cons, join?, ih]
    rfl

theorem textValue?_flatMap (s : String) :
    textValue? (s.toList.flatMap escapeChar) = some (.text s) := by
  simp [textValue?, pieces?_flatMap, join?_plain]

end Texts

section Tokens

mutual

def tokens : Json → List Token
  | arr [] => [.openList, .closeList]
  | arr (j :: js) => .openList :: tokens j ++ tokensItems js ++ [.closeList]
  | obj [] => [.openTable, .closeTable]
  | obj ((name, j) :: ms) =>
    .openTable :: .leaf (.text name) :: .colon :: tokens j ++ tokensMembers ms ++ [.closeTable]
  | j => [.leaf (.ofJson j)]

def tokensItems : List Json → List Token
  | [] => []
  | j :: js => .comma :: tokens j ++ tokensItems js

def tokensMembers : List (String × Json) → List Token
  | [] => []
  | (name, j) :: ms => .comma :: .leaf (.text name) :: .colon :: tokens j ++ tokensMembers ms

end

/-- What stands after a value: the text or the line ends, or there is punctuation. -/
def Ends (cs : List Char) : Prop := ∀ c rest, cs = c :: rest → c ∈ [',', ']', '\x7d', '\n']

theorem ends_nil : Ends [] := fun c rest h => by cases h

theorem ends_cons {c : Char} (h : c ∈ [',', ']', '\x7d', '\n']) (cs : List Char) :
    Ends (c :: cs) := by
  rintro _ _ ⟨⟩
  exact h

theorem Ends.items {cs : List Char} (h : Ends cs) (js : List Json) :
    Ends (charsItems js ++ cs) := by
  cases js with
  | nil => exact h
  | cons j js => exact ends_cons (by decide) _

theorem Ends.members {cs : List Char} (h : Ends cs) (ms : List (String × Json)) :
    Ends (charsMembers ms ++ cs) := by
  cases ms with
  | nil => exact h
  | cons e ms => exact ends_cons (by decide) _

section Lex

variable {done more : List Token} {state next : LexState} {c : Char} {cs reversed : List Char}

theorem lex?_cons (h : lexStep? c state = some (more, next)) :
    lex? done state (c :: cs) = lex? (more.reverse ++ done) next cs := by
  rw [lex?, h]

theorem lex?_punctuation (token : Token) (h : lexStep? c .between = some ([token], .between)) :
    lex? done .between (c :: cs) = lex? (token :: done) .between cs :=
  lex?_cons h

theorem lex?_silent (next : LexState) (h : lexStep? c state = some ([], next)) :
    lex? done state (c :: cs) = lex? done next cs :=
  lex?_cons h

theorem lex?_inText (hquote : c ≠ '"') (hback : c ≠ '\\') :
    lex? done (.inText reversed false) (c :: cs) = lex? done (.inText (c :: reversed) false) cs :=
  lex?_silent _ (by simp [lexStep?, hquote, hback])

theorem hexDigit_plain : ∀ n < 16, hexDigit n ≠ '"' ∧ hexDigit n ≠ '\\' := by decide

theorem lex?_escapeChar (c : Char) :
    lex? done (.inText reversed false) (escapeChar c ++ cs) =
      lex? done (.inText ((escapeChar c).reverse ++ reversed) false) cs := by
  have hback : ∀ e cs, lex? done (.inText reversed false) ('\\' :: e :: cs) =
      lex? done (.inText (e :: '\\' :: reversed) false) cs := fun e cs =>
    (lex?_silent (.inText ('\\' :: reversed) true) rfl).trans (lex?_silent _ rfl)
  rcases escapeChar_cases c with ⟨e, -, -, h⟩ | ⟨hc, h⟩ | ⟨hquote, hplain, -, h⟩ <;> rw [h]
  · exact hback e cs
  · obtain ⟨hquote, hplain⟩ := hexDigit_plain (c.toNat / 16) (by omega)
    obtain ⟨hquote', hplain'⟩ := hexDigit_plain (c.toNat % 16) (by omega)
    calc lex? done (.inText reversed false)
          ('\\' :: 'u' :: '0' :: '0' :: hexDigit (c.toNat / 16) :: hexDigit (c.toNat % 16) :: cs)
        = lex? done (.inText ('0' :: '0' :: 'u' :: '\\' :: reversed) false)
            (hexDigit (c.toNat / 16) :: hexDigit (c.toNat % 16) :: cs) := by
          rw [hback, lex?_inText (by decide) (by decide), lex?_inText (by decide) (by decide)]
      _ = _ := by
          rw [lex?_inText hquote hplain, lex?_inText hquote' hplain']
          rfl
  · exact lex?_inText hquote hplain

theorem lex?_flatMap (body : List Char) :
    lex? done (.inText reversed false) (body.flatMap escapeChar ++ cs) =
      lex? done (.inText ((body.flatMap escapeChar).reverse ++ reversed) false) cs := by
  induction body generalizing reversed with
  | nil => rfl
  | cons c body ih =>
    rw [List.flatMap_cons, List.append_assoc, lex?_escapeChar, ih, List.reverse_append,
      List.append_assoc]

theorem lex?_strChars (s : String) :
    lex? done .between (strChars s ++ cs) = lex? (.leaf (.text s) :: done) .between cs := by
  have hclose : lexStep? '"' (.inText (s.toList.flatMap escapeChar).reverse false) =
      some ([.leaf (.text s)], .between) := by
    simp [lexStep?, textValue?_flatMap]
  rw [strChars, List.cons_append, List.cons_append, lex?_silent (.inText [] false) rfl,
    List.append_assoc, lex?_flatMap, List.append_nil, List.singleton_append, lex?_cons hclose]
  rfl

theorem lex?_leaf {value : Document} (hfinish : lexFinish? state = some [.leaf value])
    (hstep : ∀ c ∈ [',', ']', '\x7d', '\n'],
      lexStep? c state = (start? c).map fun next => (.leaf value :: next.1, next.2))
    (he : Ends cs) : lex? done state cs = lex? (.leaf value :: done) .between cs := by
  cases cs with
  | nil =>
    rw [lex?, lex?, hfinish, lexFinish?]
    simp
  | cons c cs =>
    rw [lex?, hstep c (he c cs rfl), lex?, lexStep?]
    cases start? c with
    | none => rfl
    | some next => simp

theorem lex?_inNumber {ds : List Char} (h : ∀ c ∈ ds, isNumberChar c = true) :
    lex? done (.inNumber reversed) (ds ++ cs) =
      lex? done (.inNumber (ds.reverse ++ reversed)) cs := by
  induction ds generalizing reversed with
  | nil => rfl
  | cons c ds ih =>
    obtain ⟨hc, h⟩ := List.forall_mem_cons.1 h
    rw [List.cons_append, lex?_silent (.inNumber (c :: reversed)) (by simp [lexStep?, hc]), ih h,
      List.reverse_cons, List.append_assoc, List.singleton_append]

theorem start?_number (hc : c.isDigit = true ∨ c = '-') : start? c = some ([], .inNumber [c]) := by
  have hspace : isSpace c = false := by
    rw [Bool.eq_false_iff]
    intro h
    simp only [isSpace, Bool.or_eq_true, decide_eq_true_eq] at h
    rcases h with ((rfl | rfl) | rfl) | rfl <;> simp at hc
  have hquote : c ≠ '"' := by
    rintro rfl
    simp at hc
  rw [start?, hspace, if_neg Bool.false_ne_true, if_neg hquote, if_pos hc]

theorem intChars_cases (i : Int) : ∃ c ds, intChars i = c :: ds ∧
    (c.isDigit = true ∨ c = '-') ∧ ∀ d ∈ ds, isNumberChar d = true := by
  have hdigits : ∀ n, ∀ d ∈ Nat.toDigits 10 n, isNumberChar d = true := fun n d hd => by
    simp [isNumberChar, isDigit_of_mem_toDigits hd]
  rw [intChars]
  split
  · exact ⟨_, _, rfl, .inr rfl, hdigits _⟩
  · cases h : Nat.toDigits 10 i.natAbs with
    | nil => exact absurd h Nat.toDigits_ne_nil
    | cons c ds =>
      refine ⟨c, ds, rfl, .inl ?_, fun d hd => hdigits i.natAbs d ?_⟩
      · exact isDigit_of_mem_toDigits (h ▸ List.mem_cons_self)
      · exact h ▸ List.mem_cons_of_mem _ hd

theorem lex?_intChars {i : Int} (hw : (Json.int i).Whole) (he : Ends cs) :
    lex? done .between (intChars i ++ cs) = lex? (.leaf (.int i) :: done) .between cs := by
  have hvalue : numberValue? (intChars i) = some (.int i) := by
    cases hw with
    | int hmin hmax => exact numberValue?_intChars hmin hmax
  obtain ⟨c, ds, hi, hc, hds⟩ := intChars_cases i
  have hback : (ds.reverse ++ [c]).reverse = intChars i := by simp [hi]
  have hstart : lexStep? c .between = some ([], .inNumber [c]) := start?_number hc
  rw [hi, List.cons_append, lex?_silent _ hstart, lex?_inNumber hds]
  refine lex?_leaf ?_ (fun c hc => ?_) he
  · rw [lexFinish?, hback, hvalue]
    rfl
  · have hends : isNumberChar c = false := by
      simp only [List.mem_cons, List.not_mem_nil, or_false] at hc
      rcases hc with rfl | rfl | rfl | rfl <;> decide
    rw [lexStep?, hends, if_neg Bool.false_ne_true, hback, hvalue]
    cases start? c <;> rfl

theorem lex?_word {word : List Char} {value : Document} (hvalue : wordValue? word = some value)
    (hlex : ∀ done cs, lex? done .between (word ++ cs) = lex? done (.inWord word.reverse) cs)
    (he : Ends cs) :
    lex? done .between (word ++ cs) = lex? (.leaf value :: done) .between cs := by
  rw [hlex]
  refine lex?_leaf ?_ (fun c hc => ?_) he
  · rw [lexFinish?, List.reverse_reverse, hvalue]
    rfl
  · have hends : c.isAlpha = false := by
      simp only [List.mem_cons, List.not_mem_nil, or_false] at hc
      rcases hc with rfl | rfl | rfl | rfl <;> decide
    rw [lexStep?, hends, if_neg Bool.false_ne_true, List.reverse_reverse, hvalue]
    cases start? c <;> rfl

end Lex

mutual

/-- The text of a value is cut into its tokens. -/
theorem lex?_chars {j : Json} {cs : List Char} (hw : j.Whole) (done : List Token) (he : Ends cs) :
    lex? done .between (chars j ++ cs) = lex? ((tokens j).reverse ++ done) .between cs := by
  cases j with
  | null => exact lex?_word rfl (fun _ _ => rfl) he
  | bool b =>
    cases b with
    | false => exact lex?_word rfl (fun _ _ => rfl) he
    | true => exact lex?_word rfl (fun _ _ => rfl) he
  | int i => exact lex?_intChars hw he
  | real x => cases hw
  | str s => exact lex?_strChars s
  | arr items =>
    cases items with
    | nil => rfl
    | cons j js =>
      obtain ⟨hj, hjs⟩ := List.forall_mem_cons.1 hw.items
      have hclose : Ends (']' :: cs) := ends_cons (by decide) cs
      simp only [chars, List.cons_append, List.append_assoc, List.nil_append]
      rw [lex?_punctuation .openList rfl, lex?_chars hj _ (hclose.items js),
        lex?_charsItems hjs _ hclose, lex?_punctuation .closeList rfl]
      simp [tokens]
  | obj members =>
    cases members with
    | nil => rfl
    | cons e ms =>
      obtain ⟨name, j⟩ := e
      obtain ⟨hj, hms⟩ := List.forall_mem_cons.1 hw.members
      have hclose : Ends ('\x7d' :: cs) := ends_cons (by decide) cs
      simp only [chars, List.cons_append, List.append_assoc, List.nil_append]
      rw [lex?_punctuation .openTable rfl, lex?_strChars, lex?_punctuation .colon rfl,
        lex?_chars hj _ (hclose.members ms), lex?_charsMembers hms _ hclose,
        lex?_punctuation .closeTable rfl]
      simp [tokens]

theorem lex?_charsItems {js : List Json} {cs : List Char} (hw : ∀ j ∈ js, j.Whole)
    (done : List Token) (he : Ends cs) :
    lex? done .between (charsItems js ++ cs) =
      lex? ((tokensItems js).reverse ++ done) .between cs := by
  cases js with
  | nil => rfl
  | cons j js =>
    obtain ⟨hj, hjs⟩ := List.forall_mem_cons.1 hw
    simp only [charsItems, List.cons_append, List.append_assoc]
    rw [lex?_punctuation .comma rfl, lex?_chars hj _ (he.items js), lex?_charsItems hjs _ he]
    simp [tokensItems]

theorem lex?_charsMembers {ms : List (String × Json)} {cs : List Char}
    (hw : ∀ e ∈ ms, e.2.Whole) (done : List Token) (he : Ends cs) :
    lex? done .between (charsMembers ms ++ cs) =
      lex? ((tokensMembers ms).reverse ++ done) .between cs := by
  cases ms with
  | nil => rfl
  | cons e ms =>
    obtain ⟨name, j⟩ := e
    obtain ⟨hj, hms⟩ := List.forall_mem_cons.1 hw
    simp only [charsMembers, List.cons_append, List.append_assoc]
    rw [lex?_punctuation .comma rfl, lex?_strChars, lex?_punctuation .colon rfl,
      lex?_chars hj _ (he.members ms), lex?_charsMembers hms _ he]
    simp [tokensMembers]

end

theorem lex?_render {j : Json} (hw : j.Whole) :
    lex? [] .between j.render.toList = some (tokens j) := by
  have h := lex?_chars hw [] ends_nil
  rw [List.append_nil, List.append_nil] at h
  rw [render, String.toList_ofList, h, lex?, lexFinish?]
  simp

theorem lex?_newline (level : Nat) (done : List Token) (cs : List Char) :
    lex? done .between (newline level ++ cs) = lex? done .between cs := by
  rw [newline, List.cons_append, lex?_silent .between rfl]
  generalize 2 * level = n
  induction n with
  | zero => rfl
  | succ n ih => rw [List.replicate_succ, List.cons_append, lex?_silent .between rfl, ih]

theorem ends_newline (level : Nat) (cs : List Char) : Ends (newline level ++ cs) :=
  ends_cons (by decide) _

theorem Ends.prettyItems {cs : List Char} (h : Ends cs) (level : Nat) (js : List Json) :
    Ends (prettyItems level js ++ cs) := by
  cases js with
  | nil => exact h
  | cons j js => exact ends_cons (by decide) _

theorem Ends.prettyMembers {cs : List Char} (h : Ends cs) (level : Nat)
    (ms : List (String × Json)) : Ends (prettyMembers level ms ++ cs) := by
  cases ms with
  | nil => exact h
  | cons e ms => exact ends_cons (by decide) _

mutual

/-- The pretty text of a value is cut into the same tokens. -/
theorem lex?_prettyChars {j : Json} {cs : List Char} (level : Nat) (hw : j.Whole)
    (done : List Token) (he : Ends cs) :
    lex? done .between (prettyChars level j ++ cs) =
      lex? ((tokens j).reverse ++ done) .between cs := by
  cases j with
  | arr items =>
    cases items with
    | nil => exact lex?_chars hw done he
    | cons j js =>
      obtain ⟨hj, hjs⟩ := List.forall_mem_cons.1 hw.items
      have hclose : Ends (newline level ++ (']' :: cs)) := ends_newline level _
      simp only [prettyChars, List.cons_append, List.append_assoc, List.nil_append]
      rw [lex?_punctuation .openList rfl, lex?_newline,
        lex?_prettyChars _ hj _ (hclose.prettyItems _ js), lex?_prettyItems _ hjs _ hclose,
        lex?_newline, lex?_punctuation .closeList rfl]
      simp [tokens]
  | obj members =>
    cases members with
    | nil => exact lex?_chars hw done he
    | cons e ms =>
      obtain ⟨name, j⟩ := e
      obtain ⟨hj, hms⟩ := List.forall_mem_cons.1 hw.members
      have hclose : Ends (newline level ++ ('\x7d' :: cs)) := ends_newline level _
      simp only [prettyChars, List.cons_append, List.append_assoc, List.nil_append]
      rw [lex?_punctuation .openTable rfl, lex?_newline, lex?_strChars,
        lex?_punctuation .colon rfl, lex?_silent .between rfl,
        lex?_prettyChars _ hj _ (hclose.prettyMembers _ ms), lex?_prettyMembers _ hms _ hclose,
        lex?_newline, lex?_punctuation .closeTable rfl]
      simp [tokens]
  | _ => exact lex?_chars hw done he

theorem lex?_prettyItems {js : List Json} {cs : List Char} (level : Nat) (hw : ∀ j ∈ js, j.Whole)
    (done : List Token) (he : Ends cs) :
    lex? done .between (prettyItems level js ++ cs) =
      lex? ((tokensItems js).reverse ++ done) .between cs := by
  cases js with
  | nil => rfl
  | cons j js =>
    obtain ⟨hj, hjs⟩ := List.forall_mem_cons.1 hw
    simp only [prettyItems, List.cons_append, List.append_assoc]
    rw [lex?_punctuation .comma rfl, lex?_newline, lex?_prettyChars _ hj _ (he.prettyItems _ js),
      lex?_prettyItems _ hjs _ he]
    simp [tokensItems]

theorem lex?_prettyMembers {ms : List (String × Json)} {cs : List Char} (level : Nat)
    (hw : ∀ e ∈ ms, e.2.Whole) (done : List Token) (he : Ends cs) :
    lex? done .between (prettyMembers level ms ++ cs) =
      lex? ((tokensMembers ms).reverse ++ done) .between cs := by
  cases ms with
  | nil => rfl
  | cons e ms =>
    obtain ⟨name, j⟩ := e
    obtain ⟨hj, hms⟩ := List.forall_mem_cons.1 hw
    simp only [prettyMembers, List.cons_append, List.append_assoc]
    rw [lex?_punctuation .comma rfl, lex?_newline, lex?_strChars, lex?_punctuation .colon rfl,
      lex?_silent .between rfl, lex?_prettyChars _ hj _ (he.prettyMembers _ ms),
      lex?_prettyMembers _ hms _ he]
    simp [tokensMembers]

end

theorem lex?_pretty {j : Json} (hw : j.Whole) :
    lex? [] .between j.pretty.toList = some (tokens j) := by
  have h := lex?_prettyChars 0 hw [] ends_nil
  rw [List.append_nil, List.append_nil] at h
  rw [pretty, String.toList_ofList, h, lex?, lexFinish?]
  simp

end Tokens

section Trees

namespace ReaderState

theorem run_cons {state next : ReaderState} {token : Token} {rest : List Token}
    (h : state.step token = some next) : run state (token :: rest) = run next rest := by
  rw [run, h]

/-- A value does not close the list in which it is the first. -/
theorem run_first (j : Json) (frames : List Frame) (rest : List Token) :
    run (.expectItem frames) (tokens j ++ rest) =
      run (.expectValue (.list [] :: frames)) (tokens j ++ rest) := by
  cases j with
  | arr items => cases items <;> rfl
  | obj members => rcases members with _ | ⟨⟨name, j⟩, ms⟩ <;> rfl
  | _ => rfl

mutual

/-- The tokens of a value are read as its tree. -/
theorem run_tokens (j : Json) (frames : List Frame) (rest : List Token) :
    run (.expectValue frames) (tokens j ++ rest) = run (.complete (.ofJson j) frames) rest := by
  cases j with
  | arr items =>
    cases items with
    | nil => rfl
    | cons j js =>
      simp only [tokens, List.cons_append, List.append_assoc, List.nil_append]
      rw [run_cons rfl, run_first, run_tokens, run_tokensItems]
      rfl
  | obj members =>
    cases members with
    | nil => rfl
    | cons e ms =>
      obtain ⟨name, j⟩ := e
      simp only [tokens, List.cons_append, List.append_assoc, List.nil_append]
      rw [run_cons rfl, run_cons rfl, run_cons rfl, run_tokens, run_tokensMembers]
      simp [OpenTable.close, Document.ofJson, Document.ofJsonMembers]
  | _ => rfl

theorem run_tokensItems (js : List Json) (d : Document) (done : List Document)
    (frames : List Frame) (rest : List Token) :
    run (.complete d (.list done :: frames)) (tokensItems js ++ .closeList :: rest) =
      run (.complete (.list (done.reverse ++ d :: Document.ofJsonItems js)) frames) rest := by
  cases js with
  | nil =>
    rw [tokensItems, List.nil_append, run_cons rfl, List.reverse_cons]
    rfl
  | cons j js =>
    simp only [tokensItems, List.cons_append, List.append_assoc]
    rw [run_cons rfl, run_tokens, run_tokensItems]
    simp [Document.ofJsonItems]

theorem run_tokensMembers (ms : List (String × Json)) (d : Document) (table : OpenTable)
    (name : String) (frames : List Frame) (rest : List Token) :
    run (.complete d (.member table name :: frames)) (tokensMembers ms ++ .closeTable :: rest) =
      run (.complete (OpenTable.close
        ⟨(Document.ofJsonMembers ms).reverse ++ (name, d) :: table.done, table.whole⟩) frames)
        rest := by
  cases ms with
  | nil => exact run_cons rfl
  | cons e ms =>
    obtain ⟨name', j⟩ := e
    simp only [tokensMembers, List.cons_append, List.append_assoc]
    rw [run_cons rfl, run_cons rfl, run_cons rfl, run_tokens, run_tokensMembers]
    simp [Document.ofJsonMembers, OpenTable.add]

end

end ReaderState

theorem readDocument?_of_lex? {j : Json} {text : String}
    (h : lex? [] .between text.toList = some (tokens j)) :
    readDocument? text = some (.ofJson j) := by
  have hrun := ReaderState.run_tokens j [] []
  rw [List.append_nil] at hrun
  rw [readDocument?, h]
  exact hrun

theorem readDocument?_render {j : Json} (hw : j.Whole) :
    readDocument? j.render = some (.ofJson j) :=
  readDocument?_of_lex? (lex?_render hw)

theorem readDocument?_pretty {j : Json} (hw : j.Whole) :
    readDocument? j.pretty = some (.ofJson j) :=
  readDocument?_of_lex? (lex?_pretty hw)

end Trees

section Documents

mutual

/-- The document with the members of every object in the order of their names. -/
def inOrder : Json → Json
  | arr items => arr (inOrderItems items)
  | obj members => obj (Members.ofList (inOrderMembers members))
  | j => j

def inOrderItems : List Json → List Json
  | [] => []
  | j :: js => inOrder j :: inOrderItems js

def inOrderMembers : List (String × Json) → List (String × Json)
  | [] => []
  | (name, j) :: ms => (name, inOrder j) :: inOrderMembers ms

end

theorem inOrderItems_eq_map (js : List Json) : inOrderItems js = js.map inOrder := by
  induction js with
  | nil => rfl
  | cons j js ih => rw [inOrderItems, ih, List.map_cons]

theorem inOrderMembers_eq_map (ms : List (String × Json)) :
    inOrderMembers ms = ms.map fun m => (m.1, m.2.inOrder) := by
  induction ms with
  | nil => rfl
  | cons m ms ih => rw [inOrderMembers, ih, List.map_cons]

theorem Valid.inOrder_eq {j : Json} (hv : j.Valid) : j.inOrder = j := by
  induction hv with
  | arr _ ih => rw [inOrder, inOrderItems_eq_map, List.map_congr_left ih, List.map_id']
  | @obj ms hsorted _ ih =>
    have hms : (ms.map fun m => (m.1, m.2.inOrder)) = ms.map id :=
      List.map_congr_left fun m hm => Prod.ext rfl (ih m hm)
    rw [inOrder, inOrderMembers_eq_map, hms, List.map_id, Members.ofList_of_sorted hsorted]
  | _ => rfl

mutual

/-- The tree of a document stands for the document in order, if there is room for it. -/
theorem toJson?_ofJson (j : Json) (room : Nat) :
    (Document.ofJson j).toJson? room = if j.depth ≤ room then some j.inOrder else none := by
  cases j with
  | arr items =>
    rw [Document.ofJson, Document.toJson?, depth]
    split
    · rw [if_neg (by omega)]
    · rw [toJsonItems?_ofJsonItems]
      split <;> rename_i h
      · rw [if_pos (by omega)]
        rfl
      · rw [if_neg (by omega)]
        rfl
  | obj members =>
    rw [Document.ofJson, Document.toJson?, depth]
    split
    · rw [if_neg (by omega)]
    · rw [toJsonMembers?_ofJsonMembers]
      split <;> rename_i h
      · rw [if_pos (by omega)]
        rfl
      · rw [if_neg (by omega)]
        rfl
  | _ => rfl

theorem toJsonItems?_ofJsonItems (js : List Json) (room : Nat) :
    Document.toJsonItems? room (Document.ofJsonItems js) =
      if depthItems js ≤ room then some (inOrderItems js) else none := by
  cases js with
  | nil => rfl
  | cons j js =>
    rw [Document.ofJsonItems, Document.toJsonItems?, toJson?_ofJson, toJsonItems?_ofJsonItems,
      depthItems, inOrderItems]
    grind

theorem toJsonMembers?_ofJsonMembers (ms : List (String × Json)) (room : Nat) :
    Document.toJsonMembers? room (Document.ofJsonMembers ms) =
      if depthMembers ms ≤ room then some (inOrderMembers ms) else none := by
  cases ms with
  | nil => rfl
  | cons e ms =>
    obtain ⟨name, j⟩ := e
    rw [Document.ofJsonMembers, Document.toJsonMembers?, toJson?_ofJson,
      toJsonMembers?_ofJsonMembers, depthMembers, inOrderMembers]
    grind

end

/-- The text of a valid document without doubles is read as the document, if the nesting is within
the limit of the reader, and is refused if it is not. -/
theorem read?_render {j : Json} (hv : j.Valid) (hr : j.RealFree) :
    read? j.render = if j.depth ≤ maxDepth then some j else none := by
  have htree : (Document.ofJson j).toJson? maxDepth =
      if j.depth ≤ maxDepth then some j else none := by
    rw [toJson?_ofJson, hv.inOrder_eq]
  rw [read?, readDocument?_render (hv.whole hr)]
  exact htree

end Documents

end Typewire.Json
