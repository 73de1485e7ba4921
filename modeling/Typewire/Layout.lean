import Typewire.TypeScheme
import Typewire.Value

/-! # Layouts of host types

What a codec is derived from: the layout of a type name, with the types of its parts given as
schemes over its own parameters. Constructors and accessors are host code and may fail with a
message.
-/

namespace Typewire

inductive AtomicKind where
  | string
  | int
  | long
  | double
  | bool
  deriving DecidableEq, Repr

namespace AtomicKind

def name : AtomicKind → String
  | string => "string"
  | int => "int"
  | long => "long"
  | double => "double"
  | bool => "bool"

def all : List AtomicKind := [string, int, long, double, bool]

end AtomicKind

/-- Builds an instance from positional arguments. -/
structure Constructor where
  arity : Nat
  construct : List Value → Except String Value

namespace Constructor

/-- The constructor of an instance whose fields are named after the parameters. -/
def record (type : TypeName) (params : List String) : Constructor where
  arity := params.length
  construct args :=
    if args.length ≠ params.length then
      .error (type ++ " expects " ++ toString params.length ++ " argument(s), got " ++
        toString args.length)
    else .ok (.object type (Fields.ofList (params.zip args)))

end Constructor

structure Accessor where
  get : Value → Except String Value
  set : Value → Value → Except String Value

namespace Accessor

def notAnObject (target : Value) : String := "expected an object, found " ++ target.describe

def getField (name : String) : Value → Except String Value
  | .object _ fields => .ok (Fields.get name fields)
  | target => .error (notAnObject target)

def setField (name : String) (value : Value) : Value → Except String Value
  | .object type fields => .ok (.object type (Fields.set name value fields))
  | target => .error (notAnObject target)

def field (name : String) : Accessor where
  get := getField name
  set target value := setField name value target

def readOnly (name : String) : Accessor where
  get := getField name
  set _ _ := .error ("field `" ++ name ++ "` is read-only")

def computed (compute : Value → Except String Value) : Accessor where
  get := compute
  set _ _ := .error "property has no setter"

end Accessor

inductive Binding where
  | slot (index : Nat)
  | setter
  | readOnly
  | calculated
  deriving DecidableEq, Repr

namespace Binding

def isWritable : Binding → Bool
  | slot _ => true
  | setter => true
  | readOnly => false
  | calculated => false

def text : Binding → String
  | slot index => "ConstructorSlot(" ++ toString index ++ ")"
  | setter => "GetterSetterPair"
  | readOnly => "ReadOnly"
  | calculated => "Calculated"

def slot? : Binding → Option Nat
  | slot index => some index
  | _ => none

end Binding

structure Property where
  name : String
  type : TypeScheme
  binding : Binding
  accessor : Accessor
  mandatory : Bool := false
  serializable : Bool := true
  deserializable : Bool := binding.isWritable

structure RecordLayout where
  constructor : Constructor
  properties : List Property

namespace RecordLayout

def property? (name : String) (layout : RecordLayout) : Option Property :=
  layout.properties.find? fun p => p.name = name

def slots (layout : RecordLayout) : List (Nat × Property) :=
  layout.properties.filterMap fun p => p.binding.slot?.map fun index => (index, p)

end RecordLayout

structure EnumMember where
  ident : String
  label? : Option String := none
  deriving DecidableEq, Repr

namespace EnumMember

/-- The text that stands for the member outside: its label if it has one, else its identifier. -/
def label (m : EnumMember) : String := m.label?.getD m.ident

end EnumMember

structure EnumLayout where
  members : List EnumMember
  deriving DecidableEq, Repr

namespace EnumLayout

def member? (ident : String) (layout : EnumLayout) : Option EnumMember :=
  layout.members.find? fun m => m.ident = ident

def byLabel? (label : String) (layout : EnumLayout) : Option EnumMember :=
  layout.members.find? fun m => m.label = label

def labels (layout : EnumLayout) : List String := layout.members.map EnumMember.label

end EnumLayout

structure Variant where
  discriminator : String
  target : TypeScheme

structure UnionLayout where
  variants : List Variant

namespace UnionLayout

def discriminators (layout : UnionLayout) : List String :=
  layout.variants.map Variant.discriminator

end UnionLayout

/-- The layout of a host type. Nothing is known about a foreign one. -/
inductive Layout where
  | atomic (kind : AtomicKind)
  | record (layout : RecordLayout)
  | sequence (container : Container) (element : TypeScheme)
  | map (key value : TypeScheme)
  | enumeration (layout : EnumLayout)
  | union (layout : UnionLayout)
  | foreign

namespace Layout

def kindName : Layout → String
  | atomic _ => "atomic"
  | record _ => "composable"
  | sequence .list _ => "collection"
  | sequence .array _ => "array"
  | map _ _ => "map"
  | enumeration _ => "enum"
  | union _ => "polymorphic"
  | foreign => "opaque"

/-- Whether schemas of this kind get an entry and a name of their own. -/
def isNamed : Layout → Bool
  | record _ => true
  | union _ => true
  | _ => false

end Layout

end Typewire
