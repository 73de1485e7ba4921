import Typewire.Text.Printable

/-! # Quoted text

A text or a single character between quotation marks, with escapes for the mark, for the backslash
and for every character that has no printed form.
-/

namespace Typewire.Text

def hex (n : Nat) : List Char := Nat.toDigits 16 n

/-- The body of one character inside quotation marks of the kind `mark`. -/
def quoteChar (mark c : Char) : List Char :=
  if c = mark ∨ c = '\\' then ['\\', c]
  else if c = '\n' then ['\\', 'n']
  else if c = '\r' then ['\\', 'r']
  else if c = '\t' then ['\\', 't']
  else if c = '\x00' then ['\\', '0']
  else if c.toNat < 0x20 ∨ isHidden c then ['\\', 'u', '\x7b'] ++ hex c.toNat ++ ['\x7d']
  else [c]

def quoteBody (cs : List Char) : List Char := cs.flatMap (quoteChar '"')

def quote (s : String) : String := String.ofList ('"' :: quoteBody s.toList ++ ['"'])

def quoteSingle (c : Char) : String := String.ofList ('\'' :: quoteChar '\'' c ++ ['\''])

def quoteList (texts : List String) : String := "[" ++ ", ".intercalate (texts.map quote) ++ "]"

end Typewire.Text
