import Typewire.Host
import Typewire.Table

/-! # Catalogues of types

A catalogue holds the definitions of types, the built-in ones among them, and the supertypes that
are declared. A value is an instance of a type that its own type reaches through declared
supertypes.
-/

namespace Typewire

structure TypeDefinition where
  name : TypeName
  params : List String := []
  layout : Layout

inductive CatalogError where
  | duplicate (type : TypeName)
  | badType (owner : TypeName) (text : String) (cause : TermError)
  | readOnlyWriteOnly (owner : TypeName) (property : String)
  | unreadable
  | malformedJson
  | malformedToml
  | unsupportedFormat (extension : String)
  deriving DecidableEq, Repr

namespace CatalogError

def message : CatalogError → String
  | duplicate type => "type " ++ type ++ " is already defined"
  | badType owner text cause =>
    "bad type " ++ Text.quote text ++ " in " ++ owner ++ ": " ++ cause.message
  | readOnlyWriteOnly owner property =>
    owner ++ ": read-only property " ++ property ++ " cannot be write-only"
  | unreadable => "I/O error"
  | malformedJson => "JSON parse error"
  | malformedToml => "TOML parse error"
  | unsupportedFormat extension =>
    "unsupported catalog format " ++ Text.quote extension ++ " (expected .json or .toml)"

/-- Whether the words of the failure are those of the file system or of a reader. -/
def isExternal : CatalogError → Bool
  | unreadable | malformedJson | malformedToml => true
  | _ => false

end CatalogError

structure Catalog where
  types : Table TypeName TypeDefinition
  supertypes : List (TypeName × TypeName) := []

namespace Catalog

def builtins : List TypeDefinition :=
  AtomicKind.all.map (fun kind => { name := kind.name, layout := .atomic kind }) ++
    [{ name := "List", layout := .sequence .list (.param 0) },
      { name := "Array", layout := .sequence .array (.param 0) },
      { name := "Map", layout := .map (.param 0) (.param 1) },
      { name := "Class", layout := .foreign }]

def isBuiltin (type : TypeName) : Bool := builtins.any fun d => d.name = type

def initial : Catalog := { types := builtins.map fun d => (d.name, d) }

def definition? (c : Catalog) (type : TypeName) : Option TypeDefinition := Table.get? type c.types

def define (c : Catalog) (d : TypeDefinition) : Except CatalogError Catalog :=
  if Table.has d.name c.types then .error (.duplicate d.name)
  else .ok { c with types := Table.insert d.name d c.types }

def declareSubtype (c : Catalog) (sub sup : TypeName) : Catalog :=
  { c with supertypes := (sub, sup) :: c.supertypes }

/-- The number of types that are not built in. -/
def size (c : Catalog) : Nat := c.types.length - builtins.length

def userTypes (c : Catalog) : List TypeName :=
  ((Table.keys c.types).filter fun type => !isBuiltin type).mergeSort fun a b => a ≤ b

/-- Add the supertypes of types that are reached to them. -/
def climb (edges : List (TypeName × TypeName)) (reached : List TypeName) : List TypeName :=
  reached ++ (edges.filter fun e => reached.contains e.1 && !reached.contains e.2).map Prod.snd

def climbs (edges : List (TypeName × TypeName)) : Nat → List TypeName → List TypeName
  | 0, reached => reached
  | n + 1, reached => climbs edges n (climb edges reached)

/-- Every climb but the last adds the end of an edge, so there are no more than edges. -/
def isSubtype (c : Catalog) (sub sup : TypeName) : Bool :=
  (climbs c.supertypes c.supertypes.length [sub]).contains sup

def isInstance (c : Catalog) (v : Value) (t : TypeTerm) : Bool :=
  v.runtimeType?.any fun type => c.isSubtype type t.head

def layout (c : Catalog) (type : TypeName) : Except HostError Layout :=
  match c.definition? type with
  | some d => .ok d.layout
  | none => .error (.unknownType type)

def host (c : Catalog) : Host where
  layout type := some (c.layout type)
  isInstance := c.isInstance

end Catalog

end Typewire
