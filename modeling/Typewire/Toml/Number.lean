import Typewire.Json.Lexeme
import Typewire.Word

/-! # TOML numbers and dates

What a word without quotes stands for. Dates and times are told apart from numbers, but no reader
here asks for one, so they have no value.
-/

namespace Typewire.Toml

/-- The digits of a run with single underscores between digits. -/
def digits? (isDigit : Char → Bool) : List Char → Option (List Char)
  | [] => none
  | [c] => if isDigit c then some [c] else none
  | c :: '_' :: cs => if isDigit c then (digits? isDigit cs).map (c :: ·) else none
  | c :: cs => if isDigit c then (digits? isDigit cs).map (c :: ·) else none

def valueInBase (base : Nat) (ds : List Char) : Nat :=
  ds.foldl (fun n c => n * base + (Json.hexValue? c).getD 0) 0

def wholeNumber? (i : Int) : Option Document := if Word.fits64 i then some (.int i) else none

def prefixed? (base : Nat) (cs : List Char) : Option Document := do
  let isDigit (c : Char) := (Json.hexValue? c).any (· < base)
  wholeNumber? (valueInBase base (← digits? isDigit cs))

def sign : List Char → Bool × List Char
  | '-' :: cs => (true, cs)
  | '+' :: cs => (false, cs)
  | cs => (false, cs)

def splitAtFirst (p : Char → Bool) (cs : List Char) : List Char × Option (List Char) :=
  match cs.dropWhile fun c => !p c with
  | [] => (cs, none)
  | _ :: rest => (cs.takeWhile fun c => !p c, some rest)

def isDecimal (c : Char) : Bool := c.isDigit

/-- A whole part has no zero in front. -/
def wholePart? (cs : List Char) : Option (List Char) := do
  let ds ← digits? isDecimal cs
  if ds.head? = some '0' ∧ 1 < ds.length then none else some ds

/-- A number in decimal digits. Beyond the greatest double there is none, and below the least one
that has no value. -/
def decimal? (cs : List Char) : Option Document := do
  let (negative, cs) := sign cs
  let (mantissa, power) := splitAtFirst (fun c => c = 'e' || c = 'E') cs
  let (whole, frac) := splitAtFirst (· = '.') mantissa
  let whole ← wholePart? whole
  match power, frac with
  | none, none =>
    let n : Int := valueInBase 10 whole
    wholeNumber? (if negative then -n else n)
  | _, _ =>
    let frac ← match frac with
      | none => some []
      | some ds => digits? isDecimal ds
    let e : Int ← match power with
      | none => some 0
      | some cs =>
        let (down, cs) := sign cs
        (digits? isDecimal cs).map fun ds =>
          let n : Int := valueInBase 10 ds
          if down then -n else n
    let x := Binary64.ofDecimal negative (valueInBase 10 (whole ++ frac)) (e - frac.length)
    if x.isFinite then some (.real x) else if negative then some .broken else none

def pair? (lo hi : Nat) (a b : Char) : Bool :=
  let n := valueInBase 10 [a, b]
  a.isDigit && b.isDigit && lo ≤ n && n ≤ hi

def daysIn (year month : Nat) : Nat :=
  if month = 2 then
    if year % 4 = 0 ∧ (year % 100 ≠ 0 ∨ year % 400 = 0) then 29 else 28
  else if month = 4 ∨ month = 6 ∨ month = 9 ∨ month = 11 then 30
  else 31

def afterDate? : List Char → Option (List Char)
  | a :: b :: c :: d :: '-' :: e :: f :: '-' :: g :: h :: cs =>
    let year := valueInBase 10 [a, b, c, d]
    let month := valueInBase 10 [e, f]
    if [a, b, c, d].all Char.isDigit ∧ pair? 1 12 e f ∧ pair? 1 (daysIn year month) g h then
      some cs
    else none
  | _ => none

def afterFraction : List Char → Option (List Char)
  | '.' :: cs =>
    let (ds, rest) := Json.splitDigits cs
    if ds.isEmpty then none else some rest
  | cs => some cs

def afterTime? : List Char → Option (List Char)
  | a :: b :: ':' :: c :: d :: ':' :: e :: f :: cs =>
    if pair? 0 23 a b ∧ pair? 0 59 c d ∧ pair? 0 60 e f then afterFraction cs else none
  | _ => none

def afterOffset? : List Char → Option (List Char)
  | c :: cs =>
    if c = 'Z' ∨ c = 'z' then some cs
    else if c = '+' ∨ c = '-' then
      match cs with
      | a :: b :: ':' :: d :: e :: cs =>
        if pair? 0 23 a b ∧ pair? 0 59 d e then some cs else none
      | _ => none
    else some (c :: cs)
  | [] => some []

/-- Drop a date, a time of day, or both from the front of a text. -/
def afterMoment? (cs : List Char) : Option (List Char) :=
  match afterDate? cs with
  | none => afterTime? cs
  | some (c :: rest) =>
    if c = 'T' ∨ c = 't' ∨ c = ' ' then
      match afterTime? rest with
      | some rest => afterOffset? rest
      | none => if c = ' ' then some (c :: rest) else none
    else some (c :: rest)
  | some [] => some []

def isWordChar (c : Char) : Bool :=
  c.isAlphanum || c = '+' || c = '-' || c = '_' || c = '.' || c = ':'

def wordValue? (cs : List Char) : Option Document :=
  match cs with
  | ['t', 'r', 'u', 'e'] => some (.bool true)
  | ['f', 'a', 'l', 's', 'e'] => some (.bool false)
  | '0' :: 'x' :: cs => prefixed? 16 cs
  | '0' :: 'o' :: cs => prefixed? 8 cs
  | '0' :: 'b' :: cs => prefixed? 2 cs
  | cs =>
    let special := (sign cs).2
    if special = ['i', 'n', 'f'] ∨ special = ['n', 'a', 'n'] then some .broken else decimal? cs

end Typewire.Toml
