import Typewire.Registry
import Typewire.Schema

/-! # Schema dictionaries

Schemas of records and unions go to a dictionary and are referenced by name. The name is reserved
before the schema is made, so a type that reaches itself finds the reservation and gets a reference.
-/

namespace Typewire

/-- An entry without a schema is reserved. A name that was given to a term is taken. -/
structure Dictionary where
  refPrefix : String
  names : Table TypeTerm String := []
  entries : Members (Option Schema) := []
  taken : List String := []

/-- A step of a pass, which keeps what it added when it fails. -/
abbrev Collecting (α : Type) := ExceptT SchemaError (StateT Dictionary Ask) α

namespace Dictionary

/-- Type names joined by underscores, outermost first. -/
def baseName (displayName : TypeName → String) : TypeTerm → String
  | ⟨head, args⟩ => displayName head ++ argNames args
where
  argNames : List TypeTerm → String
    | [] => ""
    | arg :: args => "_" ++ baseName displayName arg ++ argNames args

/-- The `n`th name to try for a base: the base itself, then with suffixes from two on. -/
def candidate (base : String) (n : Nat) : String :=
  if n = 0 then base else base ++ "_" ++ toString (n + 1)

/-- The first candidate that is not taken. Among one more candidates than names taken there is
one. -/
def freshName (d : Dictionary) (base : String) : String :=
  let candidates := (List.range (d.taken.length + 1)).map (candidate base)
  (candidates.find? fun name => !d.taken.contains name).getD base

def reserve (d : Dictionary) (term : TypeTerm) (name : String) : Dictionary :=
  { d with
    names := Table.insert term name d.names
    entries := Members.insert name none d.entries
    taken := name :: d.taken }

def fill (d : Dictionary) (name : String) (schema : Schema) : Dictionary :=
  { d with entries := Members.insert name (some schema) d.entries }

def reference (d : Dictionary) (name : String) : Schema := .reference (d.refPrefix ++ name)

def nameOf? (settings : Settings) (d : Dictionary) (term : TypeTerm) : Option String :=
  Table.get? (settings.canonical term) d.names

def get? (d : Dictionary) (name : String) : Option Schema := (Members.get? name d.entries).join

def contains (d : Dictionary) (name : String) : Bool := Members.has name d.entries

/-- All entries, unless one is still reserved. -/
def complete? (d : Dictionary) : Except SchemaError (Members Schema) :=
  d.entries.mapM fun (name, entry) =>
    match entry with
    | some schema => .ok (name, schema)
    | none => .error (.incomplete name)

end Dictionary

namespace Collecting

variable {α : Type}

def ask (query : Ask α) : Collecting α := ExceptT.lift (StateT.lift query)

def keyReason (key : TypeTerm) : String :=
  "map key type " ++ key.text ++ " is neither a string nor a string-backed enum"

variable (nested : TypeTerm → Collecting Schema)

def properties : List FieldCodec → Collecting (List (String × Schema))
  | [] => pure []
  | f :: fs => do
    let p := f.property
    let schema ← nested f.codec.term
    let rest ← properties fs
    return (p.name, { schema with
      readOnly := p.serializable && !p.deserializable
      writeOnly := p.deserializable && !p.serializable }) :: rest

def branches : List BranchCodec → Collecting (List (String × Schema))
  | [] => pure []
  | b :: bs => do
    let schema ← nested b.target
    let rest ← branches bs
    return (b.discriminator, schema) :: rest

def atomic : AtomicKind → Schema
  | .string => .ofType .string
  | .bool => .ofType .boolean
  | .int => .formatted .integer "int32"
  | .long => .formatted .integer "int64"
  | .double => .formatted .number "double"

def mandatoryNames (fields : List FieldCodec) : List String :=
  (fields.filter fun f => f.property.mandatory).map fun f => f.property.name

def body (store : Store) : Codec → Collecting Schema
  | .atomic kind => pure (atomic kind)
  | .record _ _ fields _ => do
    let ps ← properties nested fields
    return .object (Members.ofList ps) (mandatoryNames fields)
  | .sequence _ element => do
    let items ← nested element.term
    return .array items
  | .map owner key value =>
    if store.isStringBacked key then do
      let values ← nested value.term
      return .map values
    else throw (.unsupported ⟨owner, keyReason key.term⟩)
  | .enumeration _ members => pure (.enumeration (members.map Prod.snd))
  | .union _ bs => do
    let ps ← branches nested bs
    return .object (Members.ofList ps) []
  | .formatted format _ => pure (.formatted .string format)
  | .custom codec => pure codec.schema

/-- The schema of what is behind a reference: in place, or a reference to an entry that is there
afterwards. -/
def fragment (displayName : TypeName → String) (ref : CodecRef) : Collecting Schema := do
  let store ← ask Ask.store
  match store.codec? ref with
  | none => throw (.unresolved ref.term)
  | some codec =>
    if !codec.isNamed then body nested store codec
    else
      let d ← getThe Dictionary
      match Table.get? ref.term d.names with
      | some name => return d.reference name
      | none =>
        let name := d.freshName (Dictionary.baseName displayName ref.term)
        set (d.reserve ref.term name)
        let schema ← body nested store codec
        modifyThe Dictionary fun d => d.fill name schema
        return d.reference name

end Collecting

namespace Dictionary

/-- The schema of a term. At most `calls` terms are entered inside one another. -/
def schemaWithin (displayName : TypeName → String) : Nat → TypeTerm → Collecting Schema
  | 0, _ => Collecting.ask (Query.halt .endless)
  | calls + 1, term => do
    match ← Collecting.ask (Ask.lookup term) with
    | .error e => throw (.registry e)
    | .ok ref => Collecting.fragment (schemaWithin displayName calls) displayName ref

def schemaFor (displayName : TypeName → String) (d : Dictionary) (term : TypeTerm) :
    Ask (Except SchemaError Schema × Dictionary) :=
  (schemaWithin displayName callLimit term).run.run d

end Dictionary

end Typewire
