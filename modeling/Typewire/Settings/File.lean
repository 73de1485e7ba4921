import Typewire.Document.Record
import Typewire.Json.Printer
import Typewire.Settings
import Typewire.Toml.Reader

/-! # Settings files -/

namespace Typewire

inductive SettingsError where
  | unreadable
  | malformed
  | invalid (fault : SettingsFault)
  deriving DecidableEq, Repr

namespace SettingsError

def message : SettingsError → String
  | unreadable => "cannot read the configuration"
  | malformed => "malformed configuration"
  | invalid fault => fault.message

end SettingsError

namespace Settings

/-- Read settings; what is missing has its default, and other names are ignored. -/
def ofDocument? (d : Document) : Option Settings := do
  let members ← d.members? { otherNames := true }
    ["schema_ref_prefix", "always_raw", "deny_unknown_fields", "log_level"]
  let member (name : String) := List.lookup name members
  let initial : Settings := {}
  return {
    refPrefix := ← Document.withDefault? initial.refPrefix Document.text?
      (member "schema_ref_prefix")
    alwaysRaw := ← Document.withDefault? initial.alwaysRaw Document.texts? (member "always_raw")
    denyUnknownFields := ← Document.withDefault? initial.denyUnknownFields Document.bool?
      (member "deny_unknown_fields")
    logLevel := ← Document.withDefault? initial.logLevel Document.text? (member "log_level") }

def load (text? : Option String) : Except SettingsError Settings :=
  match text? with
  | none => .error .unreadable
  | some text =>
    match (Toml.readDocument? text).bind ofDocument? with
    | none => .error .malformed
    | some s => (s.check.mapError .invalid).map fun _ => s

def tomlString (s : String) : String := String.ofList (Json.strChars s)

/-- A list on one line if it has at most one item, else with a line for each. -/
def tomlList (texts : List String) : String :=
  match texts with
  | [] => "[]"
  | [s] => "[" ++ tomlString s ++ "]"
  | texts => "[\n" ++ String.join (texts.map fun s => "    " ++ tomlString s ++ ",\n") ++ "]"

def toToml (s : Settings) : String :=
  "schema_ref_prefix = " ++ tomlString s.refPrefix ++ "\n" ++
    "always_raw = " ++ tomlList s.alwaysRaw ++ "\n" ++
    "deny_unknown_fields = " ++ (if s.denyUnknownFields then "true" else "false") ++ "\n" ++
    "log_level = " ++ tomlString s.logLevel ++ "\n"

end Settings

end Typewire
