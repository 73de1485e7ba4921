import Typewire.Json.Token

/-! # Reading JSON

A pushdown reader takes one token at a time. Its stack holds the lists and tables that are open, so
the nesting of the text costs no recursion; the limit on nesting is a matter of the document's
value.
-/

namespace Typewire.Json

/-- A table that is open: its members in reverse, and whether all its names have a value. -/
structure OpenTable where
  done : List (String × Document)
  whole : Bool

inductive Frame where
  | list (done : List Document)
  | member (table : OpenTable) (name : String)

inductive ReaderState where
  | expectValue (frames : List Frame)
  | expectItem (frames : List Frame)
  | expectName (table : OpenTable) (first : Bool) (frames : List Frame)
  | expectColon (table : OpenTable) (name : String) (frames : List Frame)
  | complete (value : Document) (frames : List Frame)

namespace OpenTable

def add (name : String) (value : Document) (table : OpenTable) : OpenTable :=
  { table with done := (name, value) :: table.done }

def close (table : OpenTable) : Document :=
  if table.whole then .table table.done.reverse else .broken

end OpenTable

namespace ReaderState

def stepValue (frames : List Frame) : Json.Token → Option ReaderState
  | .openList => some (.expectItem frames)
  | .openTable => some (.expectName ⟨[], true⟩ true frames)
  | .leaf value => some (.complete value frames)
  | _ => none

def step : ReaderState → Json.Token → Option ReaderState
  | .expectValue frames, token => stepValue frames token
  | .expectItem frames, .closeList => some (.complete (.list []) frames)
  | .expectItem frames, token => stepValue (.list [] :: frames) token
  | .expectName table first frames, .closeTable =>
    if first then some (.complete table.close frames) else none
  | .expectName table _ frames, .leaf (.text name) => some (.expectColon table name frames)
  | .expectName table _ frames, .leaf .broken =>
    some (.expectColon { table with whole := false } "" frames)
  | .expectName _ _ _, _ => none
  | .expectColon table name frames, .colon => some (.expectValue (.member table name :: frames))
  | .expectColon _ _ _, _ => none
  | .complete d (.list done :: frames), .comma => some (.expectValue (.list (d :: done) :: frames))
  | .complete d (.list done :: frames), .closeList =>
    some (.complete (.list (d :: done).reverse) frames)
  | .complete d (.member table name :: frames), .comma =>
    some (.expectName (table.add name d) false frames)
  | .complete d (.member table name :: frames), .closeTable =>
    some (.complete (table.add name d).close frames)
  | .complete _ _, _ => none

def run : ReaderState → List Json.Token → Option Document
  | .complete d [], [] => some d
  | _, [] => none
  | state, token :: tokens =>
    match step state token with
    | none => none
    | some next => run next tokens

end ReaderState

def readDocument? (s : String) : Option Document := do
  let tokens ← lex? [] .between s.toList
  ReaderState.run (.expectValue []) tokens

/-- How many arrays and objects may stand inside one another. -/
def maxDepth : Nat := 127

def read? (s : String) : Option Json := do
  let tree ← readDocument? s
  tree.toJson? maxDepth

end Typewire.Json
