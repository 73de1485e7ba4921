import Typewire.Document

/-! # Records in documents

A record with known member names is written as a table, or as a list of its members in their fixed
order, from which members may be missing at the end.
-/

namespace Typewire.Document

/-- What a reader of records lets pass: members of other names, and items after the last member. -/
structure RecordRule where
  otherNames : Bool := false
  extraItems : Bool := false
  deriving Repr

def repeated (names : List String) : Bool :=
  match names with
  | [] => false
  | name :: rest => rest.contains name || repeated rest

/-- The members that a document gives for the known names. No known name may be repeated. -/
def members? (rule : RecordRule) (known : List String) :
    Document → Option (List (String × Document))
  | table members =>
    let own := members.filter fun m => known.contains m.1
    if repeated (own.map Prod.fst) ∨ (!rule.otherNames ∧ own.length < members.length) then none
    else some own
  | list items =>
    if known.length < items.length ∧ !rule.extraItems then none else some (known.zip items)
  | _ => none

def text? : Document → Option String
  | text s => some s
  | _ => none

def bool? : Document → Option Bool
  | bool b => some b
  | _ => none

def items? : Document → Option (List Document)
  | list items => some items
  | _ => none

def texts? (d : Document) : Option (List String) := do (← d.items?).mapM text?

/-- The name of a choice without content: a text, or a table with the name as its only member, over
something `empty`. -/
def choice? (empty : Document → Bool) : Document → Option String
  | text name => some name
  | table [(name, content)] => if empty content then some name else none
  | _ => none

def isNull : Document → Bool
  | null => true
  | _ => false

def optional? {α : Type} (read : Document → Option α) : Option Document → Option (Option α)
  | none => some none
  | some null => some none
  | some d => (read d).map some

def withDefault? {α : Type} (default : α) (read : Document → Option α) : Option Document → Option α
  | none => some default
  | some d => read d

end Typewire.Document
