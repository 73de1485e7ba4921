import Typewire.Binary64.Rounding
import Typewire.Codec
import Typewire.Word

/-! # Coding of scalars

Numbers, texts and enum members. A whole number is accepted in every spelling, `2.0` included, and
must fit the width of its type.
-/

namespace Typewire.Scalar

variable {α : Type}

def encodeAtomic : AtomicKind → Value → Except EncodeCause Json
  | .string, .string s => .ok (.str s)
  | .bool, .bool b => .ok (.bool b)
  | .int, .int i => .ok (.int i.toInt)
  | .long, .int i => .ok (.int i.toInt)
  | .long, .long i => .ok (.int i.toInt)
  | .double, .double x => if x.isFinite then .ok (.real x) else .error (.notFinite x)
  | .double, .int i => .ok (.real (.ofInt i.toInt))
  | .double, .long i => .ok (.real (.ofInt i.toInt))
  | kind, v => .error (.unexpected kind.name v)

def decodeWhole : Json → Except DecodeCause Int
  | .int i => if Word.fits64 i then .ok i else .error (.outOfRange i "long")
  | .real x =>
    match x.toInt? with
    | some i =>
      if Word.fits64 i then .ok i else .error (.unexpectedKind "integer" "fractional number")
    | none => .error (.unexpectedKind "integer" "fractional number")
  | j => .error (.unexpected "integer" j)

def decodeAtomic : AtomicKind → Json → Except DecodeCause Value
  | .string, .str s => .ok (.string s)
  | .string, j => .error (.unexpected "string" j)
  | .bool, .bool b => .ok (.bool b)
  | .bool, j => .error (.unexpected "boolean" j)
  | .int, j =>
    match decodeWhole j with
    | .ok i => if Word.fits32 i then .ok (.int (.ofInt i)) else .error (.outOfRange i "int")
    | .error e => .error e
  | .long, j => (decodeWhole j).map fun i => .long (.ofInt i)
  | .double, .int i => .ok (.double (.ofInt i))
  | .double, .real x => .ok (.double x)
  | .double, j => .error (.unexpected "number" j)

def encodeEnum (type : TypeName) (members : List (String × String)) :
    Value → Except EncodeCause Json
  | .enum t member =>
    if t = type then
      match members.find? fun m => m.1 = member with
      | some m => .ok (.str m.2)
      | none => .error (.unknownMember type member)
    else .error (.unexpected ("enum " ++ type) (.enum t member))
  | v => .error (.unexpected ("enum " ++ type) v)

def decodeEnum (type : TypeName) (members : List (String × String)) :
    Json → Except DecodeCause Value
  | .str label =>
    match members.find? fun m => m.2 = label with
    | some m => .ok (.enum type m.1)
    | none => .error (.unknownLabel label (members.map Prod.snd))
  | j => .error (.unexpected "string" j)

def encodeFormatted (format : String) (accepts : String → Bool) : Value → Except EncodeCause Json
  | .string s => if accepts s then .ok (.str s) else .error (.invalidFormat format s)
  | v => .error (.unexpected (format ++ " string") v)

def decodeFormatted (format : String) (accepts : String → Bool) : Json → Except DecodeCause Value
  | .str s => if accepts s then .ok (.string s) else .error (.invalidFormat format s)
  | j => .error (.unexpected "string" j)

def isHexDigit (c : Char) : Bool :=
  c.isDigit || ('a' ≤ c && c ≤ 'f') || ('A' ≤ c && c ≤ 'F')

/-- Groups of 8, 4, 4, 4 and 12 hexadecimal digits with hyphens between them. -/
def isUuid (s : String) : Bool :=
  let groups := s.toList.splitOn '-'
  groups.map List.length = [8, 4, 4, 4, 12] && groups.all fun g => g.all isHexDigit

end Typewire.Scalar
