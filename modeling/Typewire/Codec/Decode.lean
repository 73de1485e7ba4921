import Typewire.Codec.Scalar
import Typewire.Json.Reader

/-! # Decoding

One step of a codec decodes a document by the nested codecs it is given. Nested calls get a part of
the document, so as many calls inside one another as the document is deep are enough.
-/

namespace Typewire

abbrev Decoding (α : Type) := Except DecodeError α

namespace Decoding

variable {α : Type}

def fail (cause : DecodeCause) : Decoding α := .error (.here cause)

def ofExcept (r : Except DecodeCause α) : Decoding α := r.mapError .here

def under (step : Step) (x : Decoding α) : Decoding α := x.mapError (Located.under step)

end Decoding

namespace Codec

variable (nested : CodecRef → Json → Decoding Value)

/-- The values of the properties that are read, in order. A member that is null counts as absent. -/
def decodeFields (owner : TypeTerm) (members : Members Json) :
    List FieldCodec → Decoding (List (Property × Value))
  | [] => .ok []
  | f :: fs =>
    let name := f.property.name
    if !f.property.deserializable then decodeFields owner members fs
    else
      match (Members.get? name members).filter fun j => !j.isNull with
      | none =>
        if f.property.mandatory then .fail (.missingField owner name)
        else decodeFields owner members fs
      | some j => do
        let v ← (nested f.codec j).under (.field name)
        let rest ← decodeFields owner members fs
        return (f.property, v) :: rest

def place (args : List Value) (entry : Property × Value) : List Value :=
  match entry.1.binding with
  | .slot index => args.set index entry.2
  | _ => args

/-- Constructor arguments: each value in the slot of its property, null elsewhere. -/
def arguments (arity : Nat) (values : List (Property × Value)) : List Value :=
  values.foldl place (List.replicate arity .null)

def applySetters (owner : TypeTerm) (v : Value) : List (Property × Value) → Decoding Value
  | [] => .ok v
  | (p, field) :: rest =>
    match p.binding with
    | .setter =>
      match p.accessor.set v field with
      | .ok v => applySetters owner v rest
      | .error cause => .fail (.construction ⟨owner, some p.name, cause⟩)
    | _ => applySetters owner v rest

def reads (fields : List FieldCodec) (name : String) : Bool :=
  fields.any fun f => f.property.deserializable && f.property.name = name

def decodeRecord (owner : TypeTerm) (constructor : Constructor) (fields : List FieldCodec)
    (strict : Bool) (members : Members Json) : Decoding Value :=
  match (Members.names members).find? fun name => strict && !reads fields name with
  | some name => .fail (.unknownField owner name)
  | none => do
    let values ← decodeFields nested owner members fields
    match constructor.construct (arguments constructor.arity values) with
    | .ok v => applySetters owner v values
    | .error cause => .fail (.construction ⟨owner, none, cause⟩)

def decodePart (ref : CodecRef) (step : Step) (j : Json) : Decoding Value :=
  if j.isNull then .ok .null else (nested ref j).under step

def decodeItems (element : CodecRef) (index : Nat) : List Json → Decoding (List Value)
  | [] => .ok []
  | j :: js => do
    let v ← decodePart nested element (.index index) j
    let vs ← decodeItems element (index + 1) js
    return v :: vs

def decodeEntries (key value : CodecRef) : Members Json → Decoding (List (Value × Value))
  | [] => .ok []
  | (label, j) :: members => do
    let k ← (nested key (.str label)).under (.key label)
    let v ← decodePart nested value (.key label) j
    let entries ← decodeEntries key value members
    return (k, v) :: entries

def presentBranches (branches : List BranchCodec) (members : Members Json) : List BranchCodec :=
  branches.filter fun b => Members.has b.discriminator members

def decodeUnion (branches : List BranchCodec) (members : Members Json) : Decoding Value :=
  match presentBranches branches members with
  | [b] =>
    (nested b.codec ((Members.get? b.discriminator members).getD .null)).under
      (.field b.discriminator)
  | present =>
    .fail (.discriminator (present.map BranchCodec.discriminator)
      (branches.map BranchCodec.discriminator))

def decodeWith (scope : Scope) : Codec → Json → Decoding Value
  | atomic kind, j => .ofExcept (Scalar.decodeAtomic kind j)
  | record owner constructor fields strict, .obj members =>
    decodeRecord nested owner constructor fields strict members
  | record .., j => .fail (.unexpected "object" j)
  | sequence container element, .arr items =>
    (decodeItems nested element 0 items).map (.sequence container)
  | sequence .., j => .fail (.unexpected "array" j)
  | map _ key value, .obj members =>
    if scope.isStringBacked key then (decodeEntries nested key value members).map .map
    else .fail (.unsupportedKeyType key.term)
  | map .., j => .fail (.unexpected "object" j)
  | enumeration type members, j => .ofExcept (Scalar.decodeEnum type members j)
  | union _ branches, .obj members => decodeUnion nested branches members
  | union .., j => .fail (.unexpected "object" j)
  | formatted format accepts, j => .ofExcept (Scalar.decodeFormatted format accepts j)
  | custom codec, j => codec.decode j

end Codec

namespace Store

/-- Decode with at most `calls` calls inside one another. -/
def decodeWithin (store : Store) : Nat → CodecRef → Json → Decoding Value
  | 0, ref, _ => .fail (.unresolved ref.term)
  | calls + 1, ref, j =>
    match store.codec? ref with
    | none => .fail (.unresolved ref.term)
    | some codec => codec.decodeWith (store.decodeWithin calls) store.scope j

def decode (store : Store) (ref : CodecRef) (j : Json) : Decoding Value :=
  store.decodeWithin (j.depth + 1) ref j

/-- A text that is not read is refused as malformed. What the reader of texts says of it, which would
follow after a colon, is its own wording and is left out. -/
def decodeText (store : Store) (ref : CodecRef) (s : String) : Decoding Value :=
  match Json.read? s with
  | some j => store.decode ref j
  | none => .fail (.custom "malformed JSON")

end Store

end Typewire
