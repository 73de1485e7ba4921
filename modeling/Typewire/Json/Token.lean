import Typewire.Json.Lexeme

/-! # JSON tokens

The text of a document is cut into punctuation and leaves. The cutter takes one character at a time;
between tokens it remembers nothing.
-/

namespace Typewire.Json

inductive Token where
  | openList
  | closeList
  | openTable
  | closeTable
  | comma
  | colon
  | leaf (value : Document)

inductive LexState where
  | between
  | inText (reversed : List Char) (escaped : Bool)
  | inNumber (reversed : List Char)
  | inWord (reversed : List Char)

def isSpace (c : Char) : Bool := c = ' ' || c = '\t' || c = '\n' || c = '\r'

def isNumberChar (c : Char) : Bool :=
  c.isDigit || c = '-' || c = '+' || c = '.' || c = 'e' || c = 'E'

def wordValue? (word : List Char) : Option Document :=
  if word = "null".toList then some .null
  else if word = "true".toList then some (.bool true)
  else if word = "false".toList then some (.bool false)
  else none

def punctuation? : Char → Option Token
  | '[' => some .openList
  | ']' => some .closeList
  | '{' => some .openTable
  | '}' => some .closeTable
  | ',' => some .comma
  | ':' => some .colon
  | _ => none

/-- The first character after a token: the tokens that it completes, and the state after it. -/
def start? (c : Char) : Option (List Token × LexState) :=
  if isSpace c then some ([], .between)
  else if c = '"' then some ([], .inText [] false)
  else if c.isDigit ∨ c = '-' then some ([], .inNumber [c])
  else if c.isAlpha then some ([], .inWord [c])
  else (punctuation? c).map fun token => ([token], .between)

def lexStep? (c : Char) : LexState → Option (List Token × LexState)
  | .between => start? c
  | .inText reversed escaped =>
    if !escaped ∧ c = '"' then
      (textValue? reversed.reverse).map fun value => ([.leaf value], .between)
    else some ([], .inText (c :: reversed) (!escaped && c = '\\'))
  | .inNumber reversed =>
    if isNumberChar c then some ([], .inNumber (c :: reversed))
    else do
      let value ← numberValue? reversed.reverse
      let (tokens, state) ← start? c
      return (.leaf value :: tokens, state)
  | .inWord reversed =>
    if c.isAlpha then some ([], .inWord (c :: reversed))
    else do
      let value ← wordValue? reversed.reverse
      let (tokens, state) ← start? c
      return (.leaf value :: tokens, state)

def lexFinish? : LexState → Option (List Token)
  | .between => some []
  | .inText _ _ => none
  | .inNumber reversed => (numberValue? reversed.reverse).map fun value => [.leaf value]
  | .inWord reversed => (wordValue? reversed.reverse).map fun value => [.leaf value]

/-- Prepend the tokens of the rest of the text to tokens that are known, in reverse. -/
def lex? (done : List Token) (state : LexState) : List Char → Option (List Token)
  | [] => (lexFinish? state).map fun tokens => done.reverse ++ tokens
  | c :: cs =>
    match lexStep? c state with
    | none => none
    | some (tokens, next) => lex? (tokens.reverse ++ done) next cs

end Typewire.Json
