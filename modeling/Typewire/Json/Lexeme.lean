import Typewire.Binary64.Rounding
import Typewire.Document

/-! # The values of JSON lexemes

What stands between two quotation marks, and what is written for a number. A lexeme that breaks the
grammar has no value at all; one that keeps it may still be `broken`.
-/

namespace Typewire.Json

/-- A part of a text: a character, or one half of a surrogate pair. -/
inductive Piece where
  | plain (c : Char)
  | half (unit : Nat)

def hexValue? (c : Char) : Option Nat :=
  if c.isDigit then some (c.toNat - 48)
  else if 'a' ≤ c ∧ c ≤ 'f' then some (c.toNat - 87)
  else if 'A' ≤ c ∧ c ≤ 'F' then some (c.toNat - 55)
  else none

def unitValue? (a b c d : Char) : Option Nat := do
  return (((← hexValue? a) * 16 + (← hexValue? b)) * 16 + (← hexValue? c)) * 16 + (← hexValue? d)

def simpleEscape? : Char → Option Char
  | '"' => some '"'
  | '\\' => some '\\'
  | '/' => some '/'
  | 'b' => some '\x08'
  | 'f' => some '\x0c'
  | 'n' => some '\n'
  | 'r' => some '\r'
  | 't' => some '\t'
  | _ => none

def isHighHalf (unit : Nat) : Bool := 0xd800 ≤ unit && unit < 0xdc00

def isLowHalf (unit : Nat) : Bool := 0xdc00 ≤ unit && unit < 0xe000

/-- Replace escapes. Control characters must be escaped. -/
def pieces? : List Char → Option (List Piece)
  | [] => some []
  | '\\' :: 'u' :: a :: b :: c :: d :: cs => do
    let unit ← unitValue? a b c d
    let rest ← pieces? cs
    let piece := if 0xd800 ≤ unit ∧ unit < 0xe000 then .half unit else .plain (Char.ofNat unit)
    return piece :: rest
  | '\\' :: c :: cs => do
    let e ← simpleEscape? c
    let rest ← pieces? cs
    return .plain e :: rest
  | c :: cs =>
    if c = '\\' ∨ c.toNat < 0x20 then none else (pieces? cs).map (.plain c :: ·)

/-- Join the halves of surrogate pairs, if none stands alone. -/
def join? : List Piece → Option (List Char)
  | [] => some []
  | .plain c :: ps => (join? ps).map (c :: ·)
  | .half high :: .half low :: ps =>
    if isHighHalf high ∧ isLowHalf low then
      (join? ps).map (Char.ofNat (0x10000 + (high - 0xd800) * 0x400 + (low - 0xdc00)) :: ·)
    else none
  | .half _ :: _ => none

def textValue? (body : List Char) : Option Document := do
  let pieces ← pieces? body
  match join? pieces with
  | some cs => return .text (String.ofList cs)
  | none => return .broken

def digitsValue (ds : List Char) : Nat := ds.foldl (fun n c => n * 10 + (c.toNat - 48)) 0

def splitDigits (cs : List Char) : List Char × List Char :=
  (cs.takeWhile Char.isDigit, cs.dropWhile Char.isDigit)

def fraction? : List Char → Option (List Char × List Char)
  | '.' :: cs =>
    let (ds, rest) := splitDigits cs
    if ds.isEmpty then none else some (ds, rest)
  | cs => some ([], cs)

def exponent? : List Char → Option (Option Int)
  | [] => some none
  | c :: cs =>
    if c = 'e' ∨ c = 'E' then
      let (sign, cs) : Int × List Char :=
        match cs with
        | '+' :: cs => (1, cs)
        | '-' :: cs => (-1, cs)
        | cs => (1, cs)
      let (ds, rest) := splitDigits cs
      if ds.isEmpty ∨ !rest.isEmpty then none else some (some (sign * digitsValue ds))
    else none

def realValue (x : Binary64) : Document := if x.isFinite then .real x else .broken

/-- The value of digits without a fraction and an exponent. Minus zero is a double, and so is what
fits in no word of 64 bits. -/
def wholeValue (negative : Bool) (n : Nat) : Document :=
  if negative then
    if 0 < n ∧ n ≤ 1 <<< 63 then .int (-n) else realValue (.ofDecimal true n 0)
  else if n < UInt64.size then .int n
  else realValue (.ofDecimal false n 0)

def numberValue? (cs : List Char) : Option Document := do
  let (negative, cs) := match cs with
    | '-' :: cs => (true, cs)
    | cs => (false, cs)
  let (whole, rest) := splitDigits cs
  if whole.isEmpty ∨ (whole.head? = some '0' ∧ 1 < whole.length) then none
  else
    let (frac, rest) ← fraction? rest
    let e ← exponent? rest
    if frac.isEmpty ∧ e.isNone then return wholeValue negative (digitsValue whole)
    else
      let digits := digitsValue (whole ++ frac)
      return realValue (.ofDecimal negative digits (e.getD 0 - frac.length))

end Typewire.Json
