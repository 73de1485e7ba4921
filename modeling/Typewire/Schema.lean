import Typewire.Json

/-! # Schema fragments

The part of JSON Schema that describes encoded values.
-/

namespace Typewire

inductive SchemaType where
  | string
  | integer
  | number
  | boolean
  | object
  | array
  deriving DecidableEq, Repr

namespace SchemaType

def name : SchemaType → String
  | string => "string"
  | integer => "integer"
  | number => "number"
  | boolean => "boolean"
  | object => "object"
  | array => "array"

def all : List SchemaType := [string, integer, number, boolean, object, array]

def ofName? (name : String) : Option SchemaType := all.find? fun t => t.name = name

end SchemaType

structure Schema where
  reference? : Option String := none
  type? : Option SchemaType := none
  format? : Option String := none
  properties? : Option (List (String × Schema)) := none
  required : List String := []
  items? : Option Schema := none
  additional? : Option Schema := none
  labels? : Option (List String) := none
  readOnly : Bool := false
  writeOnly : Bool := false
  deriving Repr, Inhabited

namespace Schema

/-- A fragment that stands for the dictionary entry at `path`. -/
def reference (path : String) : Schema := { reference? := some path }

def ofType (type : SchemaType) : Schema := { type? := some type }

def formatted (type : SchemaType) (format : String) : Schema :=
  { type? := some type, format? := some format }

def object (properties : Members Schema) (required : List String) : Schema :=
  { type? := some .object, properties? := some properties, required }

def array (items : Schema) : Schema := { type? := some .array, items? := some items }

def map (values : Schema) : Schema := { type? := some .object, additional? := some values }

def enumeration (labels : List String) : Schema :=
  { type? := some .string, labels? := some labels }

def isReference (s : Schema) : Bool := s.reference?.isSome

end Schema

end Typewire
