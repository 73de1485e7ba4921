import Typewire.Toml.Number
import Typewire.Toml.Scanner
import Typewire.Toml.Tables

/-! # Reading TOML

A file is a sequence of lines: a header that opens a table, or a name with a value.
-/

namespace Typewire.Toml

def isBareChar (c : Char) : Bool := c.isAlphanum || c = '_' || c = '-'

def simpleName : Scanner String := do
  match ← Scanner.peek? with
  | some '"' => shortString '"'
  | some '\'' => shortString '\''
  | _ =>
    let cs ← Scanner.takeRun isBareChar
    if cs.isEmpty then failure else return String.ofList cs

/-- A name, or names with periods between them: those before the last, and the last. -/
def dottedName (path : List String) : Nat → Scanner (List String × String)
  | 0 => failure
  | n + 1 => do
    skipSpaces
    let name ← simpleName
    skipSpaces
    if ← Scanner.accept '.' then dottedName (path ++ [name]) n else return (path, name)

/-- A name has fewer parts than this. -/
def maxParts : Nat := 80

def name : Scanner (List String × String) := do
  let (path, name) ← dottedName [] ((← Scanner.remaining) + 1)
  if path.length + 1 < maxParts then return (path, name) else failure

def bareValue : Scanner Document := do
  let cs ← get
  match afterMoment? cs with
  | some rest => do set rest; return .broken
  | none =>
    let word ← Scanner.takeRun isWordChar
    liftM (wordValue? word)

/-- How many lists and inline tables may stand inside one another. -/
def maxDepth : Nat := 79

mutual

def value (room : Nat) : Nat → Scanner Document
  | 0 => failure
  | n + 1 => do
    match ← Scanner.peek? with
    | some '"' => return .text (← anyString '"')
    | some '\'' => return .text (← anyString '\'')
    | some '[' =>
      if room = 0 then failure
      else
        Scanner.advance 1
        items (room - 1) [] n
    | some '\x7b' =>
      if room = 0 then failure
      else
        Scanner.advance 1
        skipSpaces
        if ← Scanner.accept '\x7d' then return .table []
        else members (room - 1) [] n
    | _ => bareValue

def items (room : Nat) (done : List Document) : Nat → Scanner Document
  | 0 => failure
  | n + 1 => do
    skipLines ((← Scanner.remaining) + 1)
    if ← Scanner.accept ']' then return .list done.reverse
    else
      let d ← value room n
      skipLines ((← Scanner.remaining) + 1)
      if ← Scanner.accept ',' then items room (d :: done) n
      else
        Scanner.expect ']'
        return .list (d :: done).reverse

def members (room : Nat) (done : Entries) : Nat → Scanner Document
  | 0 => failure
  | n + 1 => do
    let (path, name) ← name
    Scanner.expect '='
    skipSpaces
    let d ← value room n
    let done ← liftM (Entries.addValue path name d .opened done)
    skipSpaces
    if ← Scanner.accept ',' then members room done n
    else
      Scanner.expect '\x7d'
      return .table (entriesMembers done)

end

/-- What is read so far: the path of the table that is open, and all entries. -/
structure State where
  path : List String := []
  entries : Entries := []

def header (s : State) : Scanner State := do
  Scanner.expect '['
  let next ← Scanner.accept '['
  let (path, name) ← name
  Scanner.expect ']'
  if next then Scanner.expect ']'
  endLine
  let change := if next then Entries.openNext name else Entries.openTable name
  let entries ← liftM (Entries.descend false change path .opened s.entries)
  return ⟨path ++ [name], entries⟩

def keyValue (s : State) : Scanner State := do
  let (path, name) ← name
  Scanner.expect '='
  skipSpaces
  let d ← value maxDepth ((← Scanner.remaining) + 1)
  endLine
  let entries ← liftM
    (Entries.descend false (Entries.addValue path name d) s.path .opened s.entries)
  return { s with entries }

def lines (s : State) : Nat → Scanner State
  | 0 => failure
  | n + 1 => do
    skipSpaces
    match ← Scanner.peek? with
    | none => return s
    | some '[' => do lines (← header s) n
    | some c =>
      if c = '#' ∨ c = '\n' ∨ c = '\r' then do
        endLine
        lines s n
      else do lines (← keyValue s) n

/-- Read the tree of a text. A byte order mark in front is no part of it. -/
def readDocument? (s : String) : Option Document := do
  let cs := match s.toList with
    | '\ufeff' :: cs => cs
    | cs => cs
  let (state, _) ← (lines {} (cs.length + 1)).run cs
  return .table (entriesMembers state.entries)

end Typewire.Toml
