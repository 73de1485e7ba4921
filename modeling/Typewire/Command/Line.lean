import Typewire.Command

/-! # The command line

Options stand after the command they belong to; the option for settings may stand before it as well,
and then the later one counts. A value is the next word, or follows an equals sign, or, for a short
name, follows it at once. In the place of a command, a request for the version ends the reading.
-/

namespace Typewire

inductive Invocation where
  | schema (catalog type : String) (output? : Option String)
  | normalize (catalog type : String) (input? : Option String)
  | check (catalog : String)
  | exampleConfig (output : String)
  | version
  deriving DecidableEq, Repr

namespace CommandLine

inductive OptionName where
  | config
  | catalog
  | type
  | output
  | input
  deriving DecidableEq, Repr

/-- An option: its names, and whether its value is a path, which is never empty. -/
structure Spec where
  name : OptionName
  long : String
  short? : Option Char := none
  isPath : Bool := true

def configSpec : Spec := { name := .config, long := "config", short? := some 'c' }

def catalogSpec : Spec := { name := .catalog, long := "catalog" }

def typeSpec : Spec := { name := .type, long := "type", short? := some 't', isPath := false }

def outputSpec : Spec := { name := .output, long := "output", short? := some 'o' }

def inputSpec : Spec := { name := .input, long := "input", short? := some 'i' }

def specs? : String → Option (List Spec)
  | "schema" => some [configSpec, catalogSpec, typeSpec, outputSpec]
  | "normalize" => some [configSpec, catalogSpec, typeSpec, inputSpec]
  | "check" => some [configSpec, catalogSpec]
  | "gen-config" => some [configSpec, outputSpec]
  | _ => none

/-- The option that a word names, and the value that it holds already. -/
def matchWord? (specs : List Spec) (word : String) : Option (Spec × Option String) :=
  match word.toList with
  | '-' :: '-' :: cs =>
    let long := String.ofList (cs.takeWhile (· ≠ '='))
    let value? := match cs.dropWhile (· ≠ '=') with
      | [] => none
      | _ :: value => some (String.ofList value)
    (specs.find? fun s => s.long = long).map fun s => (s, value?)
  | '-' :: c :: cs =>
    let value? := match cs with
      | [] => none
      | '=' :: value => some (String.ofList value)
      | value => some (String.ofList value)
    (specs.find? fun s => s.short? = some c).map fun s => (s, value?)
  | _ => none

/-- Whether a word can be the value of an option: a hyphen begins a value only if it is all of it.
-/
def isValue (word : String) : Bool := word = "-" || word.toList.head? ≠ some '-'

abbrev Values := List (OptionName × String)

/-- Record a value; no option is given twice, and no path is empty. -/
def record? (values : Values) (s : Spec) (value : String) : Option Values :=
  if (List.lookup s.name values).isSome ∨ (s.isPath ∧ value.isEmpty) then none
  else some ((s.name, value) :: values)

def options? (specs : List Spec) (values : Values) : List String → Option (Values × List String)
  | [] => some (values, [])
  | [word] =>
    match matchWord? specs word with
    | some (s, some value) => (record? values s value).map fun values => (values, [])
    | some (_, none) => none
    | none => some (values, [word])
  | word :: next :: words =>
    match matchWord? specs word with
    | none => some (values, word :: next :: words)
    | some (s, some value) => do options? specs (← record? values s value) (next :: words)
    | some (s, none) =>
      if isValue next then do options? specs (← record? values s next) words else none

def invocation? (command : String) (values : Values) : Option Invocation := do
  let value? (name : OptionName) := List.lookup name values
  match command with
  | "schema" => return .schema (← value? .catalog) (← value? .type) (value? .output)
  | "normalize" => return .normalize (← value? .catalog) (← value? .type) (value? .input)
  | "check" => return .check (← value? .catalog)
  | "gen-config" => return .exampleConfig ((value? .output).getD "jsonshape.toml")
  | _ => none

/-- Whether a word asks for the version: the short name counts at once, whatever follows it. -/
def asksVersion (word : String) : Bool :=
  word = "--version" || ['-', 'V'].isPrefixOf word.toList

/-- Read a command line: the file of the settings, if one is named, and the command. Two hyphens may
end it. -/
def read? (words : List String) : Option (Option String × Invocation) := do
  let (global, rest) ← options? [configSpec] [] words
  match rest with
  | [] => none
  | command :: words =>
    if asksVersion command then return (none, .version)
    let specs ← specs? command
    let (values, rest) ← options? specs [] words
    let invocation ← invocation? command values
    if rest = [] ∨ rest = ["--"] then
      return ((List.lookup .config values).or (List.lookup .config global), invocation)
    else none

end CommandLine

/-- What a run leaves: the exit code, what is printed, what is said about a failure, and a file to
be written first. -/
structure Reply where
  exit : Nat
  printed : String := ""
  complaint : String := ""
  file? : Option (String × String) := none
  deriving DecidableEq, Repr

namespace Reply

def usage : Reply where
  exit := 2
  complaint := "usage: [--config FILE] schema|normalize|check|gen-config [OPTIONS]"

def failure (complaint : String) : Reply := { exit := 1, complaint := "Error: " ++ complaint }

def ofError (e : CommandError) : Reply := failure (": ".intercalate (e.chain.filterMap id))

def document (text : String) : Reply := { exit := 0, printed := text ++ "\n" }

def unwritten (r : Reply) : Reply :=
  match r.file? with
  | some (path, _) => failure ("cannot write " ++ path)
  | none => r

end Reply

namespace Invocation

variable (read : String → Option String)

def schemaReply (output? : Option String) (text : String) : Reply :=
  match output? with
  | none => .document text
  | some path =>
    { exit := 0
      printed := "[OK] Schema written to " ++ path ++ "\n"
      file? := some (path, text) }

def checkReply (r : CheckReport) : Reply :=
  let lines := String.join (r.lines.map (· ++ "\n"))
  if 0 < r.failures then
    { Reply.failure (toString r.failures ++ " type(s) cannot be resolved") with printed := lines }
  else
    { exit := 0, printed := lines ++ "[OK] " ++ toString r.resolved ++ " type(s) resolved\n" }

def inputs : Invocation → List String
  | schema catalog _ _ => [catalog]
  | normalize catalog _ input? => catalog :: input?.toList
  | check catalog => [catalog]
  | exampleConfig _ => []
  | version => []

def readsStdin : Invocation → Bool
  | normalize _ _ none => true
  | _ => false

/-- Carry out a command, given what each file holds and what is typed in, if they can be read. -/
def reply (stdin? : Option String) (settings : Settings) : Invocation → Reply
  | schema catalog type output? =>
    match Command.schema catalog (read catalog) type settings with
    | .error e => .ofError e
    | .ok text => schemaReply output? text
  | normalize catalog type input? =>
    match input?.elim stdin? read with
    | none => .failure "cannot read the input"
    | some input =>
      match Command.normalize catalog (read catalog) type input settings with
      | .error e => .ofError e
      | .ok text => .document text
  | check catalog =>
    match Command.check catalog (read catalog) settings with
    | .error e => .ofError e
    | .ok report => checkReply report
  | exampleConfig output =>
    { exit := 0
      printed := "[OK] Example configuration written to " ++ output ++ "\n"
      file? := some (output, Command.exampleConfig) }
  | version => .document "jsonshape 0.1.0"

end Invocation

namespace CommandLine

def inputs (words : List String) : List String :=
  match read? words with
  | none => []
  | some (config?, invocation) => config?.toList ++ invocation.inputs

def readsStdin (words : List String) : Bool := (read? words).any fun r => r.2.readsStdin

def run (read : String → Option String) (stdin? : Option String) (words : List String) : Reply :=
  match read? words with
  | none => .usage
  | some (config?, invocation) =>
    let settings := match config? with
      | none => Except.ok ({} : Settings)
      | some path => Settings.load (read path)
    match settings with
    | .error e => .failure e.message
    | .ok settings => invocation.reply read stdin? settings

end CommandLine

end Typewire
