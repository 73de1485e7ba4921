import Typewire.Catalog.FileDocument
import Typewire.Toml.Reader

/-! # Loading catalogue files -/

namespace Typewire

def fileName (path : List Char) : List Char :=
  let trimmed := path.reverse.dropWhile (· = '/')
  (trimmed.takeWhile (· ≠ '/')).reverse

/-- What follows the last period of a file name, if that is not its first character. -/
def fileExtension? (path : String) : Option String :=
  let name := fileName path.toList
  if name = ['.', '.'] then none
  else
    let tail := name.reverse.takeWhile (· ≠ '.')
    if tail.length + 1 < name.length then some (String.ofList tail.reverse) else none

namespace CatalogFile

def ofTomlText? (s : String) : Option CatalogFile := do
  ofDocument? .toml (← Toml.readDocument? s)

def ofJsonText (s : String) : Except CatalogError CatalogFile :=
  match ofJsonText? s with
  | some f => .ok f
  | none => .error .malformedJson

def ofTomlText (s : String) : Except CatalogError CatalogFile :=
  match ofTomlText? s with
  | some f => .ok f
  | none => .error .malformedToml

/-- Read the file at a path, of which there is no text if it cannot be read. -/
def load (path : String) (text? : Option String) : Except CatalogError CatalogFile :=
  match text? with
  | none => .error .unreadable
  | some text =>
    match fileExtension? path with
    | some "json" => ofJsonText text
    | some "toml" => ofTomlText text
    | extension => .error (.unsupportedFormat (extension.getD ""))

end CatalogFile

namespace Catalog

def load (path : String) (text? : Option String) : Except CatalogError Catalog := do
  let file ← CatalogFile.load path text?
  match file.registerInto initial with
  | (.ok _, c) => .ok c
  | (.error e, _) => .error e

end Catalog

end Typewire
