/-! # Type terms

A type term is a type name applied to type terms, such as `Page<List<Person>>`. Terms are the keys
under which codecs are found, so their equality is decided structurally.
-/

namespace Typewire

/-- The name of a host type before it is given arguments. -/
abbrev TypeName := String

structure TypeTerm where
  head : TypeName
  args : List TypeTerm := []
  deriving Repr, Inhabited

namespace TypeName

/-- Cut a reversed path after its first segment, where two colons end a segment. -/
def untilColons : List Char → List Char
  | [] => []
  | [c] => [c]
  | c :: d :: cs => if c = ':' ∧ d = ':' then [] else c :: untilColons (d :: cs)

/-- The last segment of a path: what follows the last `::`, and there the last period. -/
def simple (name : TypeName) : String :=
  String.ofList ((untilColons name.toList.reverse).takeWhile (· ≠ '.')).reverse

end TypeName

namespace TypeTerm

mutual

def beq : TypeTerm → TypeTerm → Bool
  | ⟨f, as⟩, ⟨g, bs⟩ => f == g && beqAll as bs

def beqAll : List TypeTerm → List TypeTerm → Bool
  | [], [] => true
  | a :: as, b :: bs => beq a b && beqAll as bs
  | _, _ => false

end

mutual

theorem beq_iff : (a b : TypeTerm) → (beq a b = true ↔ a = b)
  | ⟨f, as⟩, ⟨g, bs⟩ => by simp [beq, beqAll_iff as bs]

theorem beqAll_iff : (as bs : List TypeTerm) → (beqAll as bs = true ↔ as = bs)
  | [], [] => by simp [beqAll]
  | [], _ :: _ => by simp [beqAll]
  | _ :: _, [] => by simp [beqAll]
  | a :: as, b :: bs => by simp [beqAll, beq_iff a b, beqAll_iff as bs]

end

instance : DecidableEq TypeTerm := fun a b => decidable_of_iff _ (beq_iff a b)

def isGeneric (t : TypeTerm) : Bool := !t.args.isEmpty

def erased (t : TypeTerm) : TypeTerm := ⟨t.head, []⟩

mutual

/-- Write a term, its arguments between angle brackets and separated by a comma and a space. -/
def text : TypeTerm → String
  | ⟨head, []⟩ => head
  | ⟨head, arg :: args⟩ => head ++ "<" ++ text arg ++ textTail args ++ ">"

def textTail : List TypeTerm → String
  | [] => ""
  | arg :: args => ", " ++ text arg ++ textTail args

end

end TypeTerm

end Typewire
