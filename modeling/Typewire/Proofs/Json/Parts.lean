import Typewire.Error.Located
import Typewire.Proofs.Json.Validity

/-! # Parts of documents

The steps that lead to an error name spots in a document. A path of spots leads to a part.
-/

namespace Typewire

namespace Json

/-- Where a part stands in its document. -/
inductive Spot where
  | member (name : String)
  | item (index : Nat)

def part? : Json → Spot → Option Json
  | .obj members, .member name => Members.get? name members
  | .arr items, .item index => items[index]?
  | _, _ => none

/-- The part that a path leads to, at any depth. -/
def at? (j : Json) : List Spot → Option Json
  | [] => some j
  | spot :: path => (j.part? spot).bind fun part => part.at? path

theorem isNull_of_at? {j : Json} {path : List Spot} {members : Members Json}
    (h : j.at? path = some (.obj members)) : j.isNull = false := by
  cases j with
  | null => cases path <;> cases h
  | _ => rfl

variable {j i : Json} {members : Members Json}

theorem at?_append (path path' : List Spot) :
    j.at? (path ++ path') = (j.at? path).bind fun part => part.at? path' := by
  induction path generalizing j with
  | nil => rfl
  | cons spot path ih =>
    rw [List.cons_append, at?, at?, Option.bind_assoc]
    exact congrArg _ (funext fun part => ih)

theorem Valid.part?_member (h : (Json.obj members).Valid) {entry : String × Json}
    (he : entry ∈ members) : (Json.obj members).part? (.member entry.1) = some entry.2 :=
  h.sorted.get?_eq_some_iff.2 he

theorem Valid.of_part? (h : j.Valid) {spot : Spot} (hi : j.part? spot = some i) : i.Valid := by
  cases j with
  | arr items =>
    cases spot with
    | item index => exact h.items i (List.mem_of_getElem? hi)
    | member => cases hi
  | obj members =>
    cases spot with
    | member name => exact h.members _ (Members.mem_of_get? hi)
    | item => cases hi
  | _ => cases hi

theorem Valid.of_at? (h : j.Valid) {path : List Spot} (hi : j.at? path = some i) : i.Valid := by
  induction path generalizing j with
  | nil =>
    cases hi
    exact h
  | cons spot path ih =>
    obtain ⟨part, hpart, hi⟩ := Option.bind_eq_some_iff.1 hi
    exact ih (h.of_part? hpart) hi

end Json

def Step.spot : Step → Json.Spot
  | field name => .member name
  | index i => .item i
  | key k => .member k

/-- The part of a document that the steps of an error lead to. -/
def Json.follow? (j : Json) (path : List Step) : Option Json := j.at? (path.map Step.spot)

theorem Json.follow?_append (j : Json) (path path' : List Step) :
    j.follow? (path ++ path') = (j.follow? path).bind fun part => part.follow? path' := by
  rw [follow?, List.map_append, at?_append]
  rfl

end Typewire
