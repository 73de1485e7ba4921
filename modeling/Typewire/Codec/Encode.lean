import Typewire.Codec.Scalar
import Typewire.Json.Printer

/-! # Encoding

One step of a codec encodes a value by the nested codecs it is given; the store ties the steps
together. Unions hand the same value on, so a cycle of unions never ends: the number of calls that
stand inside one another is bounded, and an encoding that reaches the bound has no result.
-/

namespace Typewire

/-- A document, an error, or no result. -/
abbrev Encoding (α : Type) := ExceptT EncodeError Option α

namespace Encoding

variable {α : Type}

def fail (cause : EncodeCause) : Encoding α := throw (.here cause)

def ofExcept (r : Except EncodeCause α) : Encoding α := ExceptT.mk (some (r.mapError .here))

def endless : Encoding α := ExceptT.mk none

def under (step : Step) (x : Encoding α) : Encoding α := ExceptT.adapt (Located.under step) x

end Encoding

namespace Codec

variable (nested : CodecRef → Value → Encoding Json)

/-- The members for properties that are written, in order. Optional nulls are left out. -/
def encodeFields (owner : TypeTerm) (v : Value) :
    List FieldCodec → Encoding (List (String × Json))
  | [] => pure []
  | f :: fs =>
    let name := f.property.name
    if !f.property.serializable then encodeFields owner v fs
    else
      match f.property.accessor.get v with
      | .error cause => .fail (.accessor name cause)
      | .ok .null =>
        if f.property.mandatory then .fail (.nullMandatory owner name)
        else encodeFields owner v fs
      | .ok field => do
        let j ← (nested f.codec field).under (.field name)
        let rest ← encodeFields owner v fs
        return (name, j) :: rest

def encodePart (ref : CodecRef) (step : Step) (v : Value) : Encoding Json :=
  if v.isNull then pure .null else (nested ref v).under step

def encodeItems (element : CodecRef) (index : Nat) : List Value → Encoding (List Json)
  | [] => pure []
  | v :: vs => do
    let j ← encodePart nested element (.index index) v
    let js ← encodeItems element (index + 1) vs
    return j :: js

def encodeKey (stringBacked : Bool) (key : CodecRef) (v : Value) : Encoding String := do
  if v.isNull ∨ !stringBacked then
    .fail (.unsupportedKeyType (v.describe ++ " (declared " ++ key.term.text ++ ")"))
  else
    match ← nested key v with
    | .str label => return label
    | j => .fail (.unsupportedKeyType (key.term.text ++ " encoding to " ++ j.render))

def encodeEntries (stringBacked : Bool) (key value : CodecRef) (done : Members Json) :
    List (Value × Value) → Encoding (Members Json)
  | [] => pure done
  | (k, v) :: entries => do
    let label ← encodeKey nested stringBacked key k
    let j ← encodePart nested value (.field label) v
    if Members.has label done then .fail (.duplicateKey label)
    else encodeEntries stringBacked key value (Members.insert label j done) entries

/-- The first variant, in order of declaration, that a value is an instance of. -/
def branchFor? (isInstance : Value → TypeTerm → Bool) (branches : List BranchCodec) (v : Value) :
    Option BranchCodec :=
  branches.find? fun b => isInstance v b.target

def encodeWith (scope : Scope) : Codec → Value → Encoding Json
  | atomic kind, v => .ofExcept (Scalar.encodeAtomic kind v)
  | record owner _ fields _, v => do
    let members ← encodeFields nested owner v fields
    return .obj (Members.ofList members)
  | sequence _ element, .sequence _ items => do
    let js ← encodeItems nested element 0 items
    return .arr js
  | sequence _ _, v => .fail (.unexpected "list or array" v)
  | map _ key value, .map entries => do
    let members ← encodeEntries nested (scope.isStringBacked key) key value [] entries
    return .obj members
  | map _ _ _, v => .fail (.unexpected "map" v)
  | enumeration type members, v => .ofExcept (Scalar.encodeEnum type members v)
  | union owner branches, v =>
    match branchFor? scope.isInstance branches v with
    | none => .fail (.noVariant owner v.describe)
    | some b => do
      let j ← (nested b.codec v).under (.field b.discriminator)
      return .obj [(b.discriminator, j)]
  | formatted format accepts, v => .ofExcept (Scalar.encodeFormatted format accepts v)
  | custom codec, v => ExceptT.mk (some (codec.encode v))

end Codec

namespace Store

def encodeWithin (store : Store) : Nat → CodecRef → Value → Encoding Json
  | 0, _, _ => .endless
  | calls + 1, ref, v =>
    match store.codec? ref with
    | none => .fail (.unresolved ref.term)
    | some codec => codec.encodeWith (store.encodeWithin calls) store.scope v

def encode (store : Store) (ref : CodecRef) (v : Value) : Encoding Json :=
  store.encodeWithin callLimit ref v

def encodeText (store : Store) (ref : CodecRef) (v : Value) : Encoding String := do
  let j ← store.encode ref v
  return j.render

end Store

end Typewire
