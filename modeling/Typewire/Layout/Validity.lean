import Typewire.Layout

/-! # Valid layouts

What a layout must satisfy before a codec is derived from it. The checks stop at the first fault.
-/

namespace Typewire

inductive LayoutFault where
  | duplicateProperty (name : String)
  | notWritable (name : String) (binding : Binding)
  | unused (name : String)
  | slotTwice (index : Nat) (name : String)
  | slotBeyond (index : Nat) (name : String) (arity : Nat)
  | slotMissing (index arity : Nat)
  | duplicateMember (ident : String)
  | duplicateLabel (label : String)
  | noVariants
  | duplicateDiscriminator (discriminator : String)
  deriving DecidableEq, Repr

namespace LayoutFault

def message : LayoutFault → String
  | duplicateProperty name => "duplicate property " ++ name
  | notWritable name binding =>
    "property " ++ name ++ " is " ++ binding.text ++ " but marked deserializable"
  | unused name => "property " ++ name ++ " is neither serializable nor deserializable"
  | slotTwice index name => "constructor slot " ++ toString index ++ " bound twice (" ++ name ++ ")"
  | slotBeyond index name arity =>
    "constructor slot " ++ toString index ++ " of " ++ name ++ " exceeds arity " ++ toString arity
  | slotMissing index arity =>
    "constructor slot " ++ toString index ++ " has no property (arity " ++ toString arity ++ ")"
  | duplicateMember ident => "duplicate enum member " ++ ident
  | duplicateLabel label => "duplicate enum label " ++ Text.quote label
  | noVariants => "polymorphic type without variants"
  | duplicateDiscriminator discriminator =>
    "duplicate discriminator " ++ Text.quote discriminator

end LayoutFault

namespace RecordLayout

/-- Names are distinct, and each property can do what it is meant for. -/
def checkProperties (seen : List String) : List Property → Except LayoutFault Unit
  | [] => .ok ()
  | p :: ps =>
    if seen.contains p.name then .error (.duplicateProperty p.name)
    else if p.deserializable && !p.binding.isWritable then .error (.notWritable p.name p.binding)
    else if !p.serializable && !p.deserializable then .error (.unused p.name)
    else checkProperties (p.name :: seen) ps

/-- No slot is bound twice or lies beyond the arity; the answer is the slots that are bound. -/
def checkSlots (arity : Nat) (seen : List Nat) :
    List (Nat × Property) → Except LayoutFault (List Nat)
  | [] => .ok seen
  | (index, p) :: slots =>
    if index < arity then
      if seen.contains index then .error (.slotTwice index p.name)
      else checkSlots arity (index :: seen) slots
    else .error (.slotBeyond index p.name arity)

def check (layout : RecordLayout) : Except LayoutFault Unit := do
  let arity := layout.constructor.arity
  checkProperties [] layout.properties
  let seen ← checkSlots arity [] layout.slots
  match (List.range arity).find? fun index => !seen.contains index with
  | some index => .error (.slotMissing index arity)
  | none => .ok ()

end RecordLayout

namespace EnumLayout

/-- Identifiers are distinct, and so are labels. -/
def checkMembers (idents labels : List String) : List EnumMember → Except LayoutFault Unit
  | [] => .ok ()
  | m :: ms =>
    if idents.contains m.ident then .error (.duplicateMember m.ident)
    else if labels.contains m.label then .error (.duplicateLabel m.label)
    else checkMembers (m.ident :: idents) (m.label :: labels) ms

def check (layout : EnumLayout) : Except LayoutFault Unit := checkMembers [] [] layout.members

end EnumLayout

end Typewire
