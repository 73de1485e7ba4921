import Typewire.Catalog.Load
import Typewire.Codec.Decode
import Typewire.Codec.Encode
import Typewire.Schema.Dictionary
import Typewire.Schema.Document
import Typewire.Settings.File

/-! # Commands

Export the schema of a type, normalize a document by decoding and encoding it, and check all types
of a catalogue. Each command works on the text of files that are already read.
-/

namespace Typewire

inductive CommandError where
  | loadCatalog (path : String) (cause : CatalogError)
  | invalidType (text : String) (cause : TermError)
  | schema (term : TypeTerm) (cause : SchemaError)
  | dictionary (cause : SchemaError)
  | resolve (term : TypeTerm) (cause : RegistryError)
  | malformedInput
  | decode (term : TypeTerm) (cause : DecodeError)
  | encode (term : TypeTerm) (cause : EncodeError)
  | halted (why : Halt)

namespace CommandError

/-- What went wrong and why, outermost first. `none` stands for words of the file system or of a
reader. -/
def chain : CommandError → List (Option String)
  | loadCatalog path cause =>
    some ("Failed to load catalog " ++ path) ::
      if cause.isExternal then [none]
      else
        some cause.message ::
          match cause with
          | .badType _ _ reason => [some reason.message]
          | _ => []
  | invalidType text cause => [some ("Invalid type '" ++ text ++ "'"), some cause.message]
  | schema term cause =>
    [some ("Failed to generate schema for " ++ term.text), some cause.message]
  | dictionary cause => [some cause.message]
  | resolve term cause =>
    [some ("Failed to resolve codec for " ++ term.text), some cause.message]
  | malformedInput => [some "Input is not valid JSON", none]
  | decode term cause =>
    some ("Input does not decode as " ++ term.text) ::
      (cause.messages DecodeCause.message ++ cause.cause.source?.toList).map some
  | encode term cause =>
    some ("Failed to re-encode " ++ term.text) ::
      (cause.messages EncodeCause.message ++ cause.cause.source?.toList).map some
  | halted _ => [none]

end CommandError

structure CheckReport where
  lines : List String := []
  resolved : Nat := 0
  skipped : Nat := 0
  failures : Nat := 0
  deriving DecidableEq, Repr

namespace Command

def openCatalog (path : String) (text? : Option String) : Except CommandError Catalog :=
  (Catalog.load path text?).mapError (.loadCatalog path)

def registry (catalog : Catalog) (settings : Settings) : Registry :=
  { host := catalog.host, settings }

def readType (text : String) : Except CommandError TypeTerm :=
  (TypeTerm.read text).mapError (.invalidType text)

def settle {α : Type} : Outcome α → Except CommandError α
  | .ok a => .ok a
  | .error why => .error (.halted why)

/-- The schema of a term and the complete dictionary, in a pass of its own. -/
def schemaPass (term : TypeTerm) (settings : Settings) (catalog : Catalog) :
    Ask (Except SchemaError Schema × Dictionary) :=
  Dictionary.schemaFor catalog.host.displayName { refPrefix := settings.refPrefix } term

def schemaDocument (root : Schema) (entries : Members Schema) : Json :=
  .obj [("root", root.toJson), ("schemas", .obj (entries.map fun (name, s) => (name, s.toJson)))]

def schema (path : String) (text? : Option String) (type : String) (settings : Settings) :
    Except CommandError String := do
  let catalog ← openCatalog path text?
  let term ← readType type
  let (root, dictionary) ← settle ((registry catalog settings).ask
    (schemaPass term settings catalog)).1
  let root ← root.mapError (.schema term)
  let entries ← dictionary.complete?.mapError .dictionary
  return (schemaDocument root entries).pretty

def normalize (path : String) (text? : Option String) (type input : String) (settings : Settings) :
    Except CommandError String := do
  let catalog ← openCatalog path text?
  let term ← readType type
  let (outcome, reg) := (registry catalog settings).lookup term
  let ref ← (← settle outcome).mapError (.resolve term)
  match Json.read? input with
  | none => .error .malformedInput
  | some j =>
    let v ← (reg.store.decode ref j).mapError (.decode term)
    match (reg.store.encode ref v).run with
    | none => .error (.halted .endless)
    | some r => return (← r.mapError (.encode term)).pretty

/-- Why a type has no codec or no schema, and the registry after finding out. -/
def fault? (catalog : Catalog) (settings : Settings) (reg : Registry) (term : TypeTerm) :
    Outcome (Option String) × Registry :=
  match reg.lookup term with
  | (.error why, reg) => (.error why, reg)
  | (.ok (.error e), reg) => (.ok (some e.message), reg)
  | (.ok (.ok _), reg) =>
    match reg.ask (schemaPass term settings catalog) with
    | (.error why, reg) => (.error why, reg)
    | (.ok (.error e, _), reg) => (.ok (some e.message), reg)
    | (.ok (.ok _, dictionary), reg) =>
      match dictionary.complete? with
      | .error e => (.ok (some e.message), reg)
      | .ok _ => (.ok none, reg)

namespace Report

def skip (name : TypeName) (r : CheckReport) : CheckReport :=
  { r with lines := r.lines ++ ["[SKIP] " ++ name ++ " (generic)"], skipped := r.skipped + 1 }

def pass (name : TypeName) (r : CheckReport) : CheckReport :=
  { r with lines := r.lines ++ ["[OK] " ++ name], resolved := r.resolved + 1 }

def fail (name : TypeName) (reason : String) (r : CheckReport) : CheckReport :=
  { r with
    lines := r.lines ++ ["[FAIL] " ++ name ++ ": " ++ reason], failures := r.failures + 1 }

end Report

def isGeneric (catalog : Catalog) (name : TypeName) : Bool :=
  (catalog.definition? name).any fun d => !d.params.isEmpty

/-- Check types one after the other, all in one registry. -/
def checkTypes (catalog : Catalog) (settings : Settings) (reg : Registry) (report : CheckReport) :
    List TypeName → Outcome CheckReport
  | [] => .ok report
  | name :: names =>
    if isGeneric catalog name then
      checkTypes catalog settings reg (Report.skip name report) names
    else
      match fault? catalog settings reg ⟨name, []⟩ with
      | (.error why, _) => .error why
      | (.ok none, reg) => checkTypes catalog settings reg (Report.pass name report) names
      | (.ok (some reason), reg) =>
        checkTypes catalog settings reg (Report.fail name reason report) names

def check (path : String) (text? : Option String) (settings : Settings) :
    Except CommandError CheckReport := do
  let catalog ← openCatalog path text?
  settle (checkTypes catalog settings (registry catalog settings) {} catalog.userTypes)

def configHeader : String :=
  "# jsonshape registry configuration\n" ++
  "#\n" ++
  "# schema_ref_prefix    prefix of $ref values for named schemas\n" ++
  "# always_raw           raw types whose type arguments are ignored\n" ++
  "# deny_unknown_fields  reject JSON fields no property claims\n" ++
  "# log_level            default filter when RUST_LOG is unset\n" ++
  "\n"

def exampleConfig : String := configHeader ++ Settings.toToml {}

end Command

end Typewire
