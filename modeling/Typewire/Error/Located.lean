import Typewire.Text.Quoted

/-! # Located errors

A cause, and the steps that lead to it from the whole document or value.
-/

namespace Typewire

inductive Step where
  | field (name : String)
  | index (i : Nat)
  | key (k : String)
  deriving DecidableEq, Repr

structure Located (ε : Type) where
  path : List Step
  cause : ε
  deriving Repr

namespace Step

def context : Step → String
  | field name => "in field `" ++ name ++ "`: "
  | index i => "at index " ++ toString i ++ ": "
  | key k => "at key " ++ Text.quote k ++ ": "

/-- Write a step after the steps before it: a field is divided from them by a period. -/
def extend (text : String) : Step → String
  | field name => if text.isEmpty then name else text ++ "." ++ name
  | index i => text ++ "[" ++ toString i ++ "]"
  | key k => text ++ "[" ++ Text.quote k ++ "]"

/-- Write a path, such as `items[2].name`. -/
def pathText (path : List Step) : String := path.foldl extend ""

end Step

namespace Located

variable {ε α : Type}

def here (cause : ε) : Located ε := ⟨[], cause⟩

def under (step : Step) (e : Located ε) : Located ε := ⟨step :: e.path, e.cause⟩

def pathText (e : Located ε) : String := Step.pathText e.path

def messageFrom (causeMessage : ε → String) (e : Located ε) (n : Nat) : String :=
  String.join ((e.path.drop n).map Step.context) ++ causeMessage e.cause

def message (causeMessage : ε → String) (e : Located ε) : String := e.messageFrom causeMessage 0

/-- The messages of the error and of what is left of it after each step. -/
def messages (causeMessage : ε → String) (e : Located ε) : List String :=
  (List.range (e.path.length + 1)).map (e.messageFrom causeMessage)

end Located

end Typewire
