import Typewire.Document

/-! # Assembling TOML tables

Tables grow from headers and from dotted names. A table that only a path mentions may be opened
later by a header; one that dotted names made may grow by dotted names alone; a value is never
extended.
-/

namespace Typewire.Toml

/-- How a table came about: mentioned by a path only, and by a dotted name. -/
structure Origin where
  mentioned : Bool
  dotted : Bool

def Origin.opened : Origin := ⟨false, false⟩

inductive Node where
  | leaf (value : Document)
  | table (origin : Origin) (entries : List (String × Node))
  | tables (done : List (List (String × Node))) (last : List (String × Node))

abbrev Entries := List (String × Node)

namespace Entries

def put (name : String) (node : Node) : Entries → Entries
  | [] => [(name, node)]
  | (n, m) :: es => if name = n then (name, node) :: es else (n, m) :: put name node es

/-- Change the table at the end of a path. Tables on the way are made where there are none. -/
def descend (dotted : Bool) (change : Origin → Entries → Option Entries) :
    List String → Origin → Entries → Option Entries
  | [], origin, es => change origin es
  | name :: path, _, es =>
    match List.lookup name es with
    | none => do
      let origin : Origin := ⟨true, dotted⟩
      let inner ← descend dotted change path origin []
      return put name (.table origin inner) es
    | some (.leaf _) => none
    | some (.tables done last) => do
      let inner ← descend dotted change path .opened last
      return put name (.tables done inner) es
    | some (.table origin inner) =>
      if dotted ∧ !origin.mentioned then none
      else do
        let inner ← descend dotted change path origin inner
        return put name (.table origin inner) es

def addValue (path : List String) (name : String) (value : Document) (origin : Origin)
    (es : Entries) : Option Entries :=
  let add (target : Origin) (es : Entries) : Option Entries :=
    if target.dotted = path.isEmpty then none
    else
      match List.lookup name es with
      | some _ => none
      | none => some (put name (.leaf value) es)
  descend true add path origin es

def openTable (name : String) (_ : Origin) (es : Entries) : Option Entries :=
  match List.lookup name es with
  | none => some (put name (.table .opened []) es)
  | some (.table origin inner) =>
    if origin.mentioned ∧ !origin.dotted then some (put name (.table .opened inner) es) else none
  | some _ => none

def openNext (name : String) (_ : Origin) (es : Entries) : Option Entries :=
  match List.lookup name es with
  | none => some (put name (.tables [] []) es)
  | some (.tables done last) => some (put name (.tables (done ++ [last]) []) es)
  | some _ => none

end Entries

mutual

def Node.document : Node → Document
  | .leaf value => value
  | .table _ es => .table (entriesMembers es)
  | .tables done last => .list (entriesTables done ++ [.table (entriesMembers last)])

def entriesMembers : List (String × Node) → List (String × Document)
  | [] => []
  | (name, node) :: es => (name, node.document) :: entriesMembers es

def entriesTables : List (List (String × Node)) → List Document
  | [] => []
  | es :: rest => .table (entriesMembers es) :: entriesTables rest

end

end Typewire.Toml
