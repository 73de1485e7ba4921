import Typewire.Error.Located
import Typewire.TypeScheme

/-! # Errors of derivation and of schemas -/

namespace Typewire

/-- Why a host does not tell the layout of a type. -/
inductive HostError where
  | unknownType (type : TypeName)
  | invalid (type : TypeName) (reason : String)
  deriving DecidableEq, Repr

namespace HostError

def message : HostError → String
  | unknownType type => "unknown type " ++ type
  | invalid type reason => "cannot describe " ++ type ++ ": " ++ reason

end HostError

structure UnsupportedType where
  term : TypeTerm
  reason : String
  deriving DecidableEq, Repr

namespace UnsupportedType

def message (e : UnsupportedType) : String := "unsupported type " ++ e.term.text ++ ": " ++ e.reason

end UnsupportedType

inductive RegistryError where
  | unsupported (e : UnsupportedType)
  | host (e : HostError)
  | invalidLayout (term : TypeTerm) (reason : String)
  | unbound (e : UnboundParameter)
  | alreadyResolved (term : TypeTerm)
  | factoryConflict (type : TypeName)
  deriving DecidableEq, Repr

namespace RegistryError

def message : RegistryError → String
  | unsupported e => e.message
  | host e => e.message
  | invalidLayout term reason => "invalid descriptor for " ++ term.text ++ ": " ++ reason
  | unbound e =>
    "type parameter #" ++ toString e.index ++ " is unbound (" ++ toString e.arity ++
      " argument(s) supplied)"
  | alreadyResolved term =>
    term.text ++ " was already resolved; custom codecs must be registered before first use"
  | factoryConflict type =>
    "a codec factory for " ++ type ++ " is already registered or the type is in use"

end RegistryError

inductive SchemaError where
  | unsupported (e : UnsupportedType)
  | registry (e : RegistryError)
  | incomplete (name : String)
  | unresolved (term : TypeTerm)
  deriving DecidableEq, Repr

namespace SchemaError

def message : SchemaError → String
  | unsupported e => e.message
  | registry e => e.message
  | incomplete name => "schema " ++ name ++ " was reserved but never completed"
  | unresolved term => "codec for " ++ term.text ++ " is still being derived"

end SchemaError

end Typewire
