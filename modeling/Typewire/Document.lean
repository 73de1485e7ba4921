import Typewire.Json

/-! # Documents as written

The tree of a document before its members are sorted and repeated names are merged. A leaf whose
form is right but which has no value, such as a number beyond the greatest double, is kept as
`broken`: readers that skip a member do not look at its value.
-/

namespace Typewire

inductive Document where
  | null
  | bool (b : Bool)
  | int (i : Int)
  | real (x : Binary64)
  | text (s : String)
  | list (items : List Document)
  | table (members : List (String × Document))
  | broken
  deriving Repr, Inhabited

namespace Document

mutual

/-- The JSON document that is written, if every leaf has a value and no more than `room` lists and
tables stand inside one another. Of members with one name the last counts. -/
def toJson? (room : Nat) : Document → Option Json
  | null => some .null
  | bool b => some (.bool b)
  | int i => some (.int i)
  | real x => some (.real x)
  | text s => some (.str s)
  | list items => if room = 0 then none else (toJsonItems? (room - 1) items).map .arr
  | table members =>
    if room = 0 then none
    else (toJsonMembers? (room - 1) members).map fun ms => .obj (Members.ofList ms)
  | broken => none

def toJsonItems? (room : Nat) : List Document → Option (List Json)
  | [] => some []
  | d :: ds => do
    let j ← toJson? room d
    let js ← toJsonItems? room ds
    return j :: js

def toJsonMembers? (room : Nat) : List (String × Document) → Option (List (String × Json))
  | [] => some []
  | (name, d) :: ds => do
    let j ← toJson? room d
    let js ← toJsonMembers? room ds
    return (name, j) :: js

end

mutual

def ofJson : Json → Document
  | .null => null
  | .bool b => bool b
  | .int i => int i
  | .real x => real x
  | .str s => text s
  | .arr items => list (ofJsonItems items)
  | .obj members => table (ofJsonMembers members)

def ofJsonItems : List Json → List Document
  | [] => []
  | j :: js => ofJson j :: ofJsonItems js

def ofJsonMembers : List (String × Json) → List (String × Document)
  | [] => []
  | (name, j) :: ms => (name, ofJson j) :: ofJsonMembers ms

end

end Document

end Typewire
