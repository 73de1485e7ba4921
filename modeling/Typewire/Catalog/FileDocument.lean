import Typewire.Catalog.File
import Typewire.Document.Record
import Typewire.Json.Reader

/-! # Catalogue files as documents

How a catalogue file is written and read. Members of other names are refused, except beside the name
and the label of an enum member.
-/

namespace Typewire.CatalogFile

/-- What tells the kinds of files apart: whether items after the last member of a record pass, and
what stands for the empty content of a choice. -/
structure Dialect where
  extraItems : Bool
  isEmpty : Document → Bool

namespace Dialect

def json : Dialect := ⟨false, Document.isNull⟩

def toml : Dialect where
  extraItems := true
  isEmpty
    | .list [] => true
    | .table [] => true
    | _ => false

def rule (n : Dialect) : Document.RecordRule := { extraItems := n.extraItems }

end Dialect

section Writing

def strings (texts : List String) : Json := .arr (texts.map .str)

/-- A member that is left out if its list is empty. -/
def listMember (name : String) (texts : List String) : List (String × Json) :=
  if texts.isEmpty then [] else [(name, strings texts)]

def PropertyEntry.toJson (p : PropertyEntry) : Json :=
  .obj (Members.ofList [("name", .str p.name), ("type", .str p.type),
    ("binding", .str p.binding.text), ("mandatory", .bool p.mandatory),
    ("write_only", .bool p.writeOnly)])

def RecordEntry.toJson (r : RecordEntry) : Json :=
  .obj (Members.ofList ([("name", .str r.name)] ++ listMember "params" r.params ++
    listMember "extends" r.supertypes ++
    [("properties", .arr (r.properties.map PropertyEntry.toJson))]))

def MemberEntry.toJson : MemberEntry → Json
  | plain ident => .str ident
  | labelled ident label => .obj (Members.ofList [("name", .str ident), ("label", .str label)])

def EnumEntry.toJson (e : EnumEntry) : Json :=
  .obj (Members.ofList [("name", .str e.name),
    ("members", .arr (e.members.map MemberEntry.toJson))])

def VariantEntry.toJson (v : VariantEntry) : Json :=
  .obj (Members.ofList [("key", .str v.key), ("type", .str v.type)])

def UnionEntry.toJson (u : UnionEntry) : Json :=
  .obj (Members.ofList ([("name", .str u.name)] ++ listMember "params" u.params ++
    [("variants", .arr (u.variants.map VariantEntry.toJson))]))

def toJson (f : CatalogFile) : Json :=
  .obj (Members.ofList [("records", .arr (f.records.map RecordEntry.toJson)),
    ("enums", .arr (f.enums.map EnumEntry.toJson)),
    ("unions", .arr (f.unions.map UnionEntry.toJson))])

end Writing

section Reading

variable {α : Type} (n : Dialect)

def listOf? (read : Document → Option α) (d : Document) : Option (List α) := do
  (← d.items?).mapM read

def listMember? (read : Document → Option α) : Option Document → Option (List α) :=
  Document.withDefault? [] (listOf? read)

def BindingWord.ofText? : String → Option BindingWord
  | "slot" => some .slot
  | "property" => some .property
  | "read_only" => some .readOnly
  | _ => none

def BindingWord.ofDocument? (d : Document) : Option BindingWord := do
  BindingWord.ofText? (← d.choice? n.isEmpty)

def PropertyEntry.ofDocument? (d : Document) : Option PropertyEntry := do
  let members ← d.members? n.rule ["name", "type", "binding", "mandatory", "write_only"]
  let member (name : String) := List.lookup name members
  return {
    name := ← (← member "name").text?
    type := ← (← member "type").text?
    binding := ← Document.withDefault? .slot (BindingWord.ofDocument? n) (member "binding")
    mandatory := ← Document.withDefault? false Document.bool? (member "mandatory")
    writeOnly := ← Document.withDefault? false Document.bool? (member "write_only") }

def RecordEntry.ofDocument? (d : Document) : Option RecordEntry := do
  let members ← d.members? n.rule ["name", "params", "extends", "properties"]
  let member (name : String) := List.lookup name members
  return {
    name := ← (← member "name").text?
    params := ← listMember? Document.text? (member "params")
    supertypes := ← listMember? Document.text? (member "extends")
    properties := ← listMember? (PropertyEntry.ofDocument? n) (member "properties") }

def MemberEntry.ofDocument? : Document → Option MemberEntry
  | .text ident => some (.plain ident)
  | .table entries => do
    let members ← (Document.table entries).members? { otherNames := true } ["name", "label"]
    let ident ← (← List.lookup "name" members).text?
    let label ← (← List.lookup "label" members).text?
    return .labelled ident label
  | _ => none

def EnumEntry.ofDocument? (d : Document) : Option EnumEntry := do
  let members ← d.members? n.rule ["name", "members"]
  let name ← (← List.lookup "name" members).text?
  let members ← listOf? MemberEntry.ofDocument? (← List.lookup "members" members)
  return { name, members }

def VariantEntry.ofDocument? (d : Document) : Option VariantEntry := do
  let members ← d.members? n.rule ["key", "type"]
  let key ← (← List.lookup "key" members).text?
  let type ← (← List.lookup "type" members).text?
  return { key, type }

def UnionEntry.ofDocument? (d : Document) : Option UnionEntry := do
  let members ← d.members? n.rule ["name", "params", "variants"]
  let name ← (← List.lookup "name" members).text?
  let params ← listMember? Document.text? (List.lookup "params" members)
  let variants ← listOf? (VariantEntry.ofDocument? n) (← List.lookup "variants" members)
  return { name, params, variants }

def ofDocument? (d : Document) : Option CatalogFile := do
  let members ← d.members? n.rule ["records", "enums", "unions"]
  let member (name : String) := List.lookup name members
  return {
    records := ← listMember? (RecordEntry.ofDocument? n) (member "records")
    enums := ← listMember? (EnumEntry.ofDocument? n) (member "enums")
    unions := ← listMember? (UnionEntry.ofDocument? n) (member "unions") }

/-- Read a file from a JSON text, in which every leaf must have a value. -/
def ofJsonText? (s : String) : Option CatalogFile := do
  let d ← Json.readDocument? s
  let _ ← d.toJson? Json.maxDepth
  ofDocument? .json d

end Reading

end Typewire.CatalogFile
