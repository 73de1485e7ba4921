import Typewire.Catalog

/-! # Declarations of types

Records, enums and unions as they are declared, with the types of their parts as texts.
-/

namespace Typewire

namespace Catalog

def readType (owner : TypeName) (params : List String) (text : String) :
    Except CatalogError TypeScheme :=
  (TypeScheme.read params text).mapError (.badType owner text)

end Catalog

/-- How a declared property gets its value. Slots are numbered in order of declaration. -/
inductive DeclaredBinding where
  | slot
  | setter
  | readOnly
  | calculated (compute : Value → Except String Value)

structure PropertyDeclaration where
  name : String
  type : String
  binding : DeclaredBinding := .slot
  mandatory : Bool := false
  writeOnly : Bool := false

structure RecordDeclaration where
  name : TypeName
  params : List String := []
  properties : List PropertyDeclaration := []
  constructor? : Option Constructor := none

namespace RecordDeclaration

def isSlot (p : PropertyDeclaration) : Bool :=
  match p.binding with
  | .slot => true
  | _ => false

def binding (slot : Nat) : DeclaredBinding → Binding
  | .slot => .slot slot
  | .setter => .setter
  | .readOnly => .readOnly
  | .calculated _ => .calculated

def accessor (name : String) : DeclaredBinding → Accessor
  | .slot => .field name
  | .setter => .field name
  | .readOnly => .readOnly name
  | .calculated compute => .computed compute

/-- The properties, the first slot among them having the number `slot`. -/
def properties? (owner : TypeName) (params : List String) (slot : Nat) :
    List PropertyDeclaration → Except CatalogError (List Property)
  | [] => .ok []
  | p :: ps => do
    let type ← Catalog.readType owner params p.type
    let rest ← properties? owner params (if isSlot p then slot + 1 else slot) ps
    return {
      name := p.name
      type
      binding := binding slot p.binding
      accessor := accessor p.name p.binding
      mandatory := p.mandatory
      serializable := !p.writeOnly } :: rest

def slotNames (ps : List PropertyDeclaration) : List String :=
  (ps.filter isSlot).map PropertyDeclaration.name

/-- Without a constructor of its own a record is built field by field from its slots. -/
def define (d : RecordDeclaration) : Except CatalogError TypeDefinition := do
  let properties ← properties? d.name d.params 0 d.properties
  let constructor := d.constructor?.getD (.record d.name (slotNames d.properties))
  return { name := d.name, params := d.params, layout := .record { constructor, properties } }

end RecordDeclaration

structure UnionDeclaration where
  name : TypeName
  params : List String := []
  variants : List (String × String) := []

namespace UnionDeclaration

def define (d : UnionDeclaration) : Except CatalogError TypeDefinition := do
  let variants ← d.variants.mapM fun (discriminator, text) => do
    let target ← Catalog.readType d.name d.params text
    return { discriminator, target : Variant }
  return { name := d.name, params := d.params, layout := .union { variants } }

end UnionDeclaration

structure EnumDeclaration where
  name : TypeName
  members : List EnumMember := []

namespace EnumDeclaration

def define (d : EnumDeclaration) : TypeDefinition :=
  { name := d.name, layout := .enumeration { members := d.members } }

end EnumDeclaration

end Typewire
