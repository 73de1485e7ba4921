import Typewire.Text.Blank
import Typewire.Text.Quoted
import Typewire.TypeTerm

/-! # Reading type terms

A pushdown reader takes one character at a time. Its state holds the brackets that are open, each
with the name before it and the arguments that are complete, so a text is refused at the first
character that no continuation could save.
-/

namespace Typewire

/-- Why a text is no type term. Offsets count bytes of UTF-8. -/
inductive TermError where
  | emptyName (offset : Nat)
  | unexpected (found : Char) (offset : Nat)
  | unclosed
  | tooDeep (offset : Nat)
  deriving DecidableEq, Repr

namespace TypeTerm

/-- The number of brackets that may be open at one time. -/
def maxOpen : Nat := 128

end TypeTerm

def TermError.message : TermError → String
  | emptyName offset => "empty type name at offset " ++ toString offset
  | unexpected found offset =>
    "unexpected " ++ Text.quoteSingle found ++ " at offset " ++ toString offset
  | unclosed => "unexpected end of input, expected `,` or `>`"
  | tooDeep offset =>
    "type arguments nested deeper than " ++ toString TypeTerm.maxOpen ++ " levels at offset " ++
      toString offset

namespace TypeTerm

/-- An open bracket: the name before it, and the arguments read so far in reverse. -/
structure Frame where
  head : TypeName
  done : List TypeTerm

inductive ReaderState where
  | beforeName (frames : List Frame)
  | inName (reversed : List Char) (frames : List Frame)
  | afterName (name : TypeName) (frames : List Frame)
  | afterTerm (term : TypeTerm) (frames : List Frame)

namespace ReaderState

def isDelimiter (c : Char) : Bool := c = '<' || c = '>' || c = ','

def openBracket (name : TypeName) (frames : List Frame) (offset : Nat) :
    Except TermError ReaderState :=
  if frames.length = maxOpen then .error (.tooDeep offset)
  else .ok (.beforeName (⟨name, []⟩ :: frames))

def stepAfter (term : TypeTerm) (frames : List Frame) (offset : Nat) (c : Char) :
    Except TermError ReaderState :=
  if Text.isBlank c then .ok (.afterTerm term frames)
  else
    match frames with
    | [] => .error (.unexpected c offset)
    | frame :: frames =>
      if c = ',' then .ok (.beforeName (⟨frame.head, term :: frame.done⟩ :: frames))
      else if c = '>' then .ok (.afterTerm ⟨frame.head, (term :: frame.done).reverse⟩ frames)
      else .error (.unexpected c offset)

def step (offset : Nat) (c : Char) : ReaderState → Except TermError ReaderState
  | beforeName frames =>
    if Text.isBlank c then .ok (.beforeName frames)
    else if isDelimiter c then .error (.emptyName offset)
    else .ok (.inName [c] frames)
  | inName reversed frames =>
    let name := String.ofList reversed.reverse
    if Text.isBlank c then .ok (.afterName name frames)
    else if c = '<' then openBracket name frames offset
    else if isDelimiter c then stepAfter ⟨name, []⟩ frames offset c
    else .ok (.inName (c :: reversed) frames)
  | afterName name frames =>
    if Text.isBlank c then .ok (.afterName name frames)
    else if c = '<' then openBracket name frames offset
    else stepAfter ⟨name, []⟩ frames offset c
  | afterTerm term frames => stepAfter term frames offset c

def close (term : TypeTerm) : List Frame → Except TermError TypeTerm
  | [] => .ok term
  | _ :: _ => .error .unclosed

def finish (offset : Nat) : ReaderState → Except TermError TypeTerm
  | beforeName _ => .error (.emptyName offset)
  | inName reversed frames => close ⟨String.ofList reversed.reverse, []⟩ frames
  | afterName name frames => close ⟨name, []⟩ frames
  | afterTerm term frames => close term frames

def run (offset : Nat) (state : ReaderState) : List Char → Except TermError TypeTerm
  | [] => finish offset state
  | c :: cs =>
    match step offset c state with
    | .error e => .error e
    | .ok next => run (offset + c.utf8Size) next cs

end ReaderState

def read (s : String) : Except TermError TypeTerm := ReaderState.run 0 (.beforeName []) s.toList

end TypeTerm

end Typewire
