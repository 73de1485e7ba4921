import Typewire.TypeTerm.Reader

/-! # Type schemes

A type scheme is a type term with holes for the parameters of the type whose declaration it stands
in. Instantiation replaces all holes at once by the arguments of a term.
-/

namespace Typewire

inductive TypeScheme where
  | param (index : Nat)
  | apply (head : TypeName) (args : List TypeScheme)
  deriving Repr, Inhabited

/-- A hole without an argument: its index, and how many arguments there are. -/
structure UnboundParameter where
  index : Nat
  arity : Nat
  deriving DecidableEq, Repr

namespace TypeScheme

mutual

/-- Turn each name that has no arguments and is a parameter into a hole, for the first parameter of
that name. -/
def ofTerm (params : List String) : TypeTerm → TypeScheme
  | ⟨head, []⟩ =>
    match params.idxOf? head with
    | some index => param index
    | none => apply head []
  | ⟨head, arg :: args⟩ => apply head (ofTerm params arg :: ofTerms params args)

def ofTerms (params : List String) : List TypeTerm → List TypeScheme
  | [] => []
  | arg :: args => ofTerm params arg :: ofTerms params args

end

def read (params : List String) (s : String) : Except TermError TypeScheme :=
  (TypeTerm.read s).map (ofTerm params)

mutual

/-- Fill the holes from left to right, up to the first that has no argument. -/
def instantiate (args : List TypeTerm) : TypeScheme → Except UnboundParameter TypeTerm
  | param index =>
    match args[index]? with
    | some arg => .ok arg
    | none => .error ⟨index, args.length⟩
  | apply head inner => (instantiateAll args inner).map (TypeTerm.mk head)

def instantiateAll (args : List TypeTerm) :
    List TypeScheme → Except UnboundParameter (List TypeTerm)
  | [] => .ok []
  | s :: ss => do
    let t ← instantiate args s
    let ts ← instantiateAll args ss
    return t :: ts

end

mutual

def maxParam : TypeScheme → Option Nat
  | param index => some index
  | apply _ args => maxParamAll args

def maxParamAll : List TypeScheme → Option Nat
  | [] => none
  | s :: ss => max (maxParam s) (maxParamAll ss)

end

mutual

def text : TypeScheme → String
  | param index => "$" ++ toString index
  | apply head [] => head
  | apply head (arg :: args) => head ++ "<" ++ text arg ++ textTail args ++ ">"

def textTail : List TypeScheme → String
  | [] => ""
  | arg :: args => ", " ++ text arg ++ textTail args

end

end TypeScheme

end Typewire
