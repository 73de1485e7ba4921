import Typewire.Document.Record
import Typewire.Schema

/-! # Schema fragments as documents

A fragment writes the members that it has: no empty list of required names, and no flag that is off.
-/

namespace Typewire.Schema

def strings (texts : List String) : Json := .arr (texts.map .str)

def plainMembers (s : Schema) : List (String × Json) :=
  (s.reference?.map fun r => ("$ref", Json.str r)).toList ++
    (s.type?.map fun t => ("type", Json.str t.name)).toList ++
    (s.format?.map fun f => ("format", Json.str f)).toList ++
    (if s.required.isEmpty then [] else [("required", strings s.required)]) ++
    (s.labels?.map fun ls => ("enum", strings ls)).toList ++
    (if s.readOnly then [("readOnly", Json.bool true)] else []) ++
    (if s.writeOnly then [("writeOnly", Json.bool true)] else [])

mutual

def toJson : Schema → Json
  | ⟨reference?, type?, format?, properties?, required, items?, additional?, labels?, readOnly,
      writeOnly⟩ =>
    let plain := plainMembers
      ⟨reference?, type?, format?, none, required, none, none, labels?, readOnly, writeOnly⟩
    .obj (Members.ofList (plain ++ propertiesMember properties? ++ memberOf "items" items? ++
      memberOf "additionalProperties" additional?))

def memberOf (name : String) : Option Schema → List (String × Json)
  | none => []
  | some s => [(name, toJson s)]

def propertiesMember : Option (List (String × Schema)) → List (String × Json)
  | none => []
  | some ps => [("properties", .obj (propertyMembers ps))]

def propertyMembers : List (String × Schema) → List (String × Json)
  | [] => []
  | (name, s) :: ps => (name, toJson s) :: propertyMembers ps

end

def memberNames : List String :=
  ["$ref", "type", "format", "properties", "required", "items", "additionalProperties", "enum",
    "readOnly", "writeOnly"]

def readTexts? (room : Nat) (d : Document) : Option (List String) :=
  if room = 0 then none else d.texts?

def readType? (room : Nat) (d : Document) : Option SchemaType := do
  match d with
  | .text name => SchemaType.ofName? name
  | d => if room = 0 then none else SchemaType.ofName? (← d.choice? Document.isNull)

def readTable? (read : Document → Option Schema) : Document → Option (Members Schema)
  | .table members => do
    let entries ← members.mapM fun (name, d) => do return (name, ← read d)
    return Members.ofList entries
  | _ => none

/-- Read a fragment in which no more than `room` lists and tables stand inside one another. -/
def ofDocument? : Nat → Document → Option Schema
  | 0, _ => none
  | room + 1, d => do
    let members ← d.members? { otherNames := true } memberNames
    let member (name : String) := List.lookup name members
    let properties := Document.optional? fun d =>
      match room with
      | 0 => none
      | room + 1 => readTable? (ofDocument? room) d
    let fragment := Document.optional? (ofDocument? room)
    return {
      reference? := ← Document.optional? Document.text? (member "$ref")
      type? := ← Document.optional? (readType? room) (member "type")
      format? := ← Document.optional? Document.text? (member "format")
      properties? := ← properties (member "properties")
      required := ← Document.withDefault? [] (readTexts? room) (member "required")
      items? := ← fragment (member "items")
      additional? := ← fragment (member "additionalProperties")
      labels? := ← Document.optional? (readTexts? room) (member "enum")
      readOnly := ← Document.withDefault? false Document.bool? (member "readOnly")
      writeOnly := ← Document.withDefault? false Document.bool? (member "writeOnly") }

def ofJson? (j : Json) : Option Schema := ofDocument? j.depth (.ofJson j)

end Typewire.Schema
