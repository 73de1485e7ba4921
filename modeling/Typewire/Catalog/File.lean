import Typewire.Catalog.Declaration

/-! # Catalogue files

The declarations that a file holds: records, enums and unions. They are added to a catalogue in this
order, up to the first that fails.
-/

namespace Typewire

namespace CatalogFile

inductive BindingWord where
  | slot
  | property
  | readOnly
  deriving DecidableEq, Repr

structure PropertyEntry where
  name : String
  type : String
  binding : BindingWord := .slot
  mandatory : Bool := false
  writeOnly : Bool := false
  deriving DecidableEq, Repr

structure RecordEntry where
  name : String
  params : List String := []
  supertypes : List String := []
  properties : List PropertyEntry := []
  deriving DecidableEq, Repr

inductive MemberEntry where
  | plain (ident : String)
  | labelled (ident label : String)
  deriving DecidableEq, Repr

structure EnumEntry where
  name : String
  members : List MemberEntry
  deriving DecidableEq, Repr

structure VariantEntry where
  key : String
  type : String
  deriving DecidableEq, Repr

structure UnionEntry where
  name : String
  params : List String := []
  variants : List VariantEntry
  deriving DecidableEq, Repr

namespace BindingWord

def text : BindingWord → String
  | slot => "slot"
  | property => "property"
  | readOnly => "read_only"

def declared : BindingWord → DeclaredBinding
  | slot => .slot
  | property => .setter
  | readOnly => .readOnly

end BindingWord

namespace PropertyEntry

def isContradictory (p : PropertyEntry) : Bool := p.binding = .readOnly && p.writeOnly

def declaration (p : PropertyEntry) : PropertyDeclaration where
  name := p.name
  type := p.type
  binding := p.binding.declared
  mandatory := p.mandatory
  writeOnly := p.writeOnly

end PropertyEntry

namespace RecordEntry

/-- No property that is only read may be only written, whatever the types are. -/
def define (r : RecordEntry) : Except CatalogError TypeDefinition :=
  match r.properties.find? PropertyEntry.isContradictory with
  | some p => .error (.readOnlyWriteOnly r.name p.name)
  | none =>
    RecordDeclaration.define
      { name := r.name
        params := r.params
        properties := r.properties.map PropertyEntry.declaration }

end RecordEntry

namespace MemberEntry

def member : MemberEntry → EnumMember
  | plain ident => { ident }
  | labelled ident label => { ident, label? := some label }

end MemberEntry

namespace EnumEntry

def define (e : EnumEntry) : TypeDefinition :=
  EnumDeclaration.define { name := e.name, members := e.members.map MemberEntry.member }

end EnumEntry

namespace UnionEntry

def define (u : UnionEntry) : Except CatalogError TypeDefinition :=
  UnionDeclaration.define
    { name := u.name, params := u.params, variants := u.variants.map fun v => (v.key, v.type) }

end UnionEntry

inductive Entry where
  | record (entry : RecordEntry)
  | enumeration (entry : EnumEntry)
  | union (entry : UnionEntry)

namespace Entry

def name : Entry → String
  | record r => r.name
  | enumeration e => e.name
  | union u => u.name

def supertypes : Entry → List String
  | record r => r.supertypes
  | _ => []

def define : Entry → Except CatalogError TypeDefinition
  | record r => r.define
  | enumeration e => .ok e.define
  | union u => u.define

def addTo (e : Entry) (c : Catalog) : Except CatalogError Catalog := do
  let c ← c.define (← e.define)
  return e.supertypes.foldl (fun c sup => c.declareSubtype e.name sup) c

end Entry

end CatalogFile

open CatalogFile in
structure CatalogFile where
  records : List RecordEntry := []
  enums : List EnumEntry := []
  unions : List UnionEntry := []
  deriving DecidableEq, Repr

namespace CatalogFile

def entries (f : CatalogFile) : List Entry :=
  f.records.map Entry.record ++ f.enums.map Entry.enumeration ++ f.unions.map Entry.union

def typeNames (f : CatalogFile) : List String := f.entries.map Entry.name

def addEntries (c : Catalog) : List Entry → Except CatalogError Unit × Catalog
  | [] => (.ok (), c)
  | e :: es =>
    match e.addTo c with
    | .ok c => addEntries c es
    | .error error => (.error error, c)

/-- Add all declarations to a catalogue. Those before a failing one stay. -/
def registerInto (f : CatalogFile) (c : Catalog) : Except CatalogError Unit × Catalog :=
  addEntries c f.entries

end CatalogFile

end Typewire
