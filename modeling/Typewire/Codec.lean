import Typewire.Error.Coding
import Typewire.Layout
import Typewire.Schema

/-! # Codecs

A codec translates the values of one type term to JSON and back. It names the codecs of nested types
by references to numbered slots, which a store fills when their derivation completes, so a type may
refer to itself.
-/

namespace Typewire

/-- The codec of a type term, by the slot that holds it or will hold it. -/
structure CodecRef where
  term : TypeTerm
  slot : Nat
  deriving DecidableEq, Repr, Inhabited

structure FieldCodec where
  property : Property
  codec : CodecRef

structure BranchCodec where
  discriminator : String
  target : TypeTerm
  codec : CodecRef

structure CustomCodec where
  encode : Value → Except EncodeError Json
  decode : Json → Except DecodeError Value
  schema : Schema
  stringBacked : Bool := false

inductive Codec where
  | atomic (kind : AtomicKind)
  | record (owner : TypeTerm) (constructor : Constructor) (fields : List FieldCodec) (strict : Bool)
  | sequence (container : Container) (element : CodecRef)
  | map (owner : TypeTerm) (key value : CodecRef)
  | enumeration (type : TypeName) (members : List (String × String))
  | union (owner : TypeTerm) (branches : List BranchCodec)
  | formatted (format : String) (accepts : String → Bool)
  | custom (codec : CustomCodec)

inductive CodecKind where
  | atomic
  | object
  | collection
  | map
  | enum
  | polymorphic
  | custom
  deriving DecidableEq, Repr

namespace Codec

def kind : Codec → CodecKind
  | atomic _ => .atomic
  | record .. => .object
  | sequence .. => .collection
  | map .. => .map
  | enumeration .. => .enum
  | union .. => .polymorphic
  | formatted .. => .custom
  | custom _ => .custom

/-- Whether the schema goes to the dictionary under a name. -/
def isNamed : Codec → Bool
  | record .. => true
  | union .. => true
  | _ => false

/-- Whether values become texts, so that they can name the members of an object. -/
def isStringBacked : Codec → Bool
  | atomic kind => kind = .string
  | enumeration .. => true
  | formatted .. => true
  | custom codec => codec.stringBacked
  | _ => false

def refs : Codec → List CodecRef
  | record _ _ fields _ => fields.map FieldCodec.codec
  | sequence _ element => [element]
  | map _ key value => [key, value]
  | union _ branches => branches.map BranchCodec.codec
  | _ => []

end Codec

/-- More calls inside one another than any machine has room for. -/
def callLimit : Nat := 1 <<< 62

/-- What a step of a codec needs to know beside the codecs of nested types: the check on runtime
types that unions use, and which codecs give texts that can name members. -/
structure Scope where
  isInstance : Value → TypeTerm → Bool
  isStringBacked : CodecRef → Bool

/-- The slots of a registry, and the check on runtime types that unions use. -/
structure Store where
  isInstance : Value → TypeTerm → Bool
  slots : Array (Option Codec)

namespace Store

/-- The codec behind a reference, once its derivation is complete. -/
def codec? (store : Store) (ref : CodecRef) : Option Codec := store.slots[ref.slot]?.join

def isResolved (store : Store) (ref : CodecRef) : Bool := (store.codec? ref).isSome

def isStringBacked (store : Store) (ref : CodecRef) : Bool :=
  (store.codec? ref).any Codec.isStringBacked

def scope (store : Store) : Scope := ⟨store.isInstance, store.isStringBacked⟩

end Store

end Typewire
