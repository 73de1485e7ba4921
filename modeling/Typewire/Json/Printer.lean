import Typewire.Binary64.Shortest
import Typewire.Json

/-! # Writing JSON

The compact form has no spaces; the pretty form puts each item and each member on a line of its own.
Both escape only what must be escaped.
-/

namespace Typewire.Json

/-- The decimal exponents of the leading digit for which a double is written without one. -/
def plainExponents : Int × Int := (-5, 15)

def zeros (n : Nat) : List Char := List.replicate n '0'

def pointAfter (n : Nat) (digits : List Char) : List Char :=
  let whole := digits.take n ++ zeros (n - digits.length)
  let frac := digits.drop n
  whole ++ '.' :: (if frac.isEmpty then ['0'] else frac)

def realDigits (digits : List Char) (leading : Int) : List Char :=
  if leading < plainExponents.1 ∨ plainExponents.2 < leading then
    let mantissa := if digits.length ≤ 1 then digits else pointAfter 1 digits
    mantissa ++ 'e' :: (if leading < 0 then '-' else '+') :: Nat.toDigits 10 leading.natAbs
  else if leading < 0 then '0' :: '.' :: zeros (leading.natAbs - 1) ++ digits
  else pointAfter (leading.natAbs + 1) digits

/-- The shortest text that reads back, always with a point or an exponent. -/
def realChars (x : Binary64) : List Char :=
  let sign := if x.negative then ['-'] else []
  if x.isZero then sign ++ ['0', '.', '0']
  else
    let (digits, e) := Binary64.trimZeros 17 x.shortest
    let ds := Nat.toDigits 10 digits
    sign ++ realDigits ds (e + ds.length - 1)

def intChars (i : Int) : List Char :=
  if i < 0 then '-' :: Nat.toDigits 10 i.natAbs else Nat.toDigits 10 i.natAbs

def hexDigit (n : Nat) : Char := Nat.digitChar n

def escapeChar (c : Char) : List Char :=
  if c = '"' then ['\\', '"']
  else if c = '\\' then ['\\', '\\']
  else if c = '\x08' then ['\\', 'b']
  else if c = '\x0c' then ['\\', 'f']
  else if c = '\n' then ['\\', 'n']
  else if c = '\r' then ['\\', 'r']
  else if c = '\t' then ['\\', 't']
  else if c.toNat < 0x20 then
    ['\\', 'u', '0', '0', hexDigit (c.toNat / 16), hexDigit (c.toNat % 16)]
  else [c]

def strChars (s : String) : List Char := '"' :: s.toList.flatMap escapeChar ++ ['"']

mutual

def chars : Json → List Char
  | null => "null".toList
  | bool b => if b then "true".toList else "false".toList
  | int i => intChars i
  | real x => realChars x
  | str s => strChars s
  | arr [] => ['[', ']']
  | arr (j :: js) => '[' :: chars j ++ charsItems js ++ [']']
  | obj [] => ['\x7b', '\x7d']
  | obj ((name, j) :: ms) =>
    '\x7b' :: strChars name ++ ':' :: chars j ++ charsMembers ms ++ ['\x7d']

def charsItems : List Json → List Char
  | [] => []
  | j :: js => ',' :: chars j ++ charsItems js

def charsMembers : List (String × Json) → List Char
  | [] => []
  | (name, j) :: ms => ',' :: strChars name ++ ':' :: chars j ++ charsMembers ms

end

def render (j : Json) : String := String.ofList (chars j)

/-- A new line, indented by two spaces for each level. -/
def newline (level : Nat) : List Char := '\n' :: List.replicate (2 * level) ' '

mutual

def prettyChars (level : Nat) : Json → List Char
  | arr (j :: js) =>
    '[' :: newline (level + 1) ++ prettyChars (level + 1) j ++ prettyItems (level + 1) js ++
      newline level ++ [']']
  | obj ((name, j) :: ms) =>
    '\x7b' :: newline (level + 1) ++ strChars name ++ ':' :: ' ' :: prettyChars (level + 1) j ++
      prettyMembers (level + 1) ms ++ newline level ++ ['\x7d']
  | j => chars j

def prettyItems (level : Nat) : List Json → List Char
  | [] => []
  | j :: js => ',' :: newline level ++ prettyChars level j ++ prettyItems level js

def prettyMembers (level : Nat) : List (String × Json) → List Char
  | [] => []
  | (name, j) :: ms =>
    ',' :: newline level ++ strChars name ++ ':' :: ' ' :: prettyChars level j ++
      prettyMembers level ms

end

/-- The text with one item or member a line. -/
def pretty (j : Json) : String := String.ofList (prettyChars 0 j)

end Typewire.Json
