import Typewire.Json.Lexeme

/-! # Scanning TOML

Blanks, comments, line ends, and the two kinds of strings in their short and long forms.
-/

namespace Typewire.Toml

/-- Takes characters from the front of a text. -/
abbrev Scanner (α : Type) := StateT (List Char) Option α

namespace Scanner

def peek? : Scanner (Option Char) := do return (← get).head?

def advance (n : Nat) : Scanner Unit := modify fun cs => cs.drop n

def remaining : Scanner Nat := do return (← get).length

def takeRun (p : Char → Bool) : Scanner (List Char) := do
  let cs ← get
  set (cs.dropWhile p)
  return cs.takeWhile p

def accept (c : Char) : Scanner Bool := do
  match ← get with
  | d :: cs => if c = d then do set cs; return true else return false
  | [] => return false

def expect (c : Char) : Scanner Unit := do
  if ← accept c then return () else failure

def startsWith (text : List Char) : Scanner Bool := do return text.isPrefixOf (← get)

end Scanner

def isSpace (c : Char) : Bool := c = ' ' || c = '\t'

/-- What may stand in comments and strings as it is. -/
def isPlain (c : Char) : Bool := c = '\t' || (0x20 ≤ c.toNat && c.toNat ≠ 0x7f)

def skipSpaces : Scanner Unit := do let _ ← Scanner.takeRun isSpace

def skipNewline : Scanner Bool := do
  match ← get with
  | '\n' :: cs => do set cs; return true
  | '\r' :: '\n' :: cs => do set cs; return true
  | _ => return false

def skipComment : Scanner Unit := do
  if ← Scanner.accept '#' then
    let _ ← Scanner.takeRun isPlain

/-- Nothing but a comment up to the end of the line. -/
def endLine : Scanner Unit := do
  skipSpaces
  skipComment
  if ← skipNewline then return ()
  else if (← Scanner.peek?).isSome then failure

def skipLines : Nat → Scanner Unit
  | 0 => return ()
  | n + 1 => do
    skipSpaces
    skipComment
    if ← skipNewline then skipLines n

def scalar? (ds : List Char) : Option Char := do
  let values ← ds.mapM Json.hexValue?
  let n := values.foldl (fun n d => n * 16 + d) 0
  if n < 0xd800 ∨ (0xdfff < n ∧ n < 0x110000) then some (Char.ofNat n) else none

def simpleEscape? : Char → Option Char
  | 'b' => some '\x08'
  | 't' => some '\t'
  | 'n' => some '\n'
  | 'f' => some '\x0c'
  | 'r' => some '\r'
  | '"' => some '"'
  | '\\' => some '\\'
  | _ => none

def escape? : List Char → Option (Char × List Char)
  | 'u' :: cs =>
    if cs.length < 4 then none else (scalar? (cs.take 4)).map fun c => (c, cs.drop 4)
  | 'U' :: cs =>
    if cs.length < 8 then none else (scalar? (cs.take 8)).map fun c => (c, cs.drop 8)
  | c :: cs => (simpleEscape? c).map fun e => (e, cs)
  | [] => none

def dropBlanks : List Char → List Char
  | [] => []
  | '\r' :: '\n' :: cs => dropBlanks cs
  | c :: cs => if isSpace c ∨ c = '\n' then dropBlanks cs else c :: cs

/-- After a backslash at the end of a line: the first character that is no blank. -/
def continueLine? (cs : List Char) : Option (List Char) :=
  match cs.dropWhile isSpace with
  | '\n' :: cs => some (dropBlanks cs)
  | '\r' :: '\n' :: cs => some (dropBlanks cs)
  | _ => none

def shortBody (mark : Char) (done : List Char) : Nat → List Char → Option (List Char × List Char)
  | 0, _ => none
  | _, [] => none
  | n + 1, c :: cs =>
    if c = mark then some (done.reverse, cs)
    else if c = '\\' ∧ mark = '"' then do
      let (e, cs) ← escape? cs
      shortBody mark (e :: done) n cs
    else if isPlain c then shortBody mark (c :: done) n cs
    else none

/-- The body of a long string. Up to two marks may stand before the three that end it. -/
def longBody (mark : Char) (done : List Char) : Nat → List Char → Option (List Char × List Char)
  | 0, _ => none
  | _, [] => none
  | n + 1, c :: cs =>
    if c = mark then
      let run := (c :: cs).takeWhile (· = mark)
      let rest := (c :: cs).dropWhile (· = mark)
      if run.length < 3 then longBody mark (run ++ done) n rest
      else if run.length ≤ 5 then some (done.reverse ++ run.drop 3, rest)
      else none
    else if c = '\\' ∧ mark = '"' then
      match escape? cs with
      | some (e, cs) => longBody mark (e :: done) n cs
      | none =>
        match continueLine? cs with
        | some cs => longBody mark done n cs
        | none => none
    else if c = '\n' then longBody mark ('\n' :: done) n cs
    else if c = '\r' then
      match cs with
      | '\n' :: cs => longBody mark ('\n' :: done) n cs
      | _ => none
    else if isPlain c then longBody mark (c :: done) n cs
    else none

def body (scan : Nat → List Char → Option (List Char × List Char)) : Scanner String := do
  let cs ← get
  let (done, rest) ← liftM (scan (cs.length + 1) cs)
  set rest
  return String.ofList done

def shortString (mark : Char) : Scanner String := do
  Scanner.expect mark
  body (shortBody mark [])

/-- A string of either length, whose mark is next. A line end right after the long marks is no part
of the string. -/
def anyString (mark : Char) : Scanner String := do
  if ← Scanner.startsWith [mark, mark, mark] then
    Scanner.advance 3
    let _ ← skipNewline
    body (longBody mark [])
  else shortString mark

end Typewire.Toml
