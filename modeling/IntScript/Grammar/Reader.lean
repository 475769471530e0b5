import IntScript.Token.Lexer

/-!
# Readers

A reader consumes tokens from the front of a list and yields a value or an error; after an error the
tokens stay where the failure left them.  Readers that repeat or nest take fuel.  Running out of it
is an outcome apart from every error, so that it can be shown never to happen.
-/

namespace IntScript

/-- The tokens that are left to read, and the place in the source where no further token starts. -/
structure Tokens where
  file : String
  pending : List Token
  stop : Cursor

namespace Tokens

/-- All tokens of a source. -/
def ofSource (source : String) (file : String) : Tokens :=
  let (pending, stop) := (Cursor.ofSource source).tokens
  ⟨file, pending, stop⟩

/-- The first token; behind the last one it is the end of the source, or an error if the source does
not end there. -/
def current (tokens : Tokens) : Except Error Token :=
  match tokens.pending with
  | token :: _ => .ok token
  | [] => tokens.stop.stopped tokens.file

/-- The tokens behind the first one.  There is nothing behind the end. -/
def rest (tokens : Tokens) : Tokens :=
  { tokens with pending := tokens.pending.tail }

/-- Whether the source ends here. -/
def atEnd (tokens : Tokens) : Bool :=
  tokens.pending.isEmpty && tokens.stop.rest.isEmpty

/-- Where the first token starts. -/
def offset (tokens : Tokens) : UInt32 :=
  match tokens.pending with
  | token :: _ => token.start
  | [] => .ofNat tokens.stop.offset

end Tokens

/-- Why a reader yields no value. -/
inductive Halt where
  | fault (error : Error)
  | outOfFuel

/-- A reader of values of type `α`. -/
abbrev Reader (α : Type) := EStateM Halt Tokens α

namespace Reader

variable {α : Type}

/-- The first token, not consumed. -/
def current : Reader Token := fun tokens =>
  match tokens.current with
  | .ok token => .ok token tokens
  | .error error => .error (.fault error) tokens

/-- The kind of the first token. -/
def currentKind : Reader TokenKind := do
  return (← current).kind

/-- Consumes the first token.  The end of the source is not consumed. -/
def advance : Reader Token := fun tokens =>
  match tokens.current with
  | .ok token => .ok token tokens.rest
  | .error error => .error (.fault error) tokens

/-- Whether tokens are left. -/
def hasTokens : Reader Bool := fun tokens =>
  .ok (!tokens.atEnd) tokens

/-- Halts with a fault at a token. -/
def failAt (token : Token) (fault : ParseFault) : Reader α := fun tokens =>
  .error (.fault ⟨.parse fault, ⟨token.start, tokens.file⟩⟩) tokens

/-- Halts for want of fuel. -/
def outOfFuel : Reader α := fun tokens =>
  .error .outOfFuel tokens

/-- Halts at the first token, which is not what was expected. -/
def failInstead (expectation : String) : Reader α := do
  let token ← current
  failAt token (.unexpectedInstead token.text expectation)

/-- Consumes a token of the given kind. -/
def expect (kind : TokenKind) : Reader Token := do
  let token ← current
  if token.kind = kind then advance
  else failAt token (.unexpected token.text)

/-- Consumes a token of the given kind, where a fault tells what was expected. -/
def expectFor (kind : TokenKind) (expectation : String) : Reader Token := do
  let token ← current
  if token.kind = kind then advance
  else failAt token (.unexpectedInstead token.text expectation)

/-- The outcome of a reader, which consumes nothing. -/
def lookahead (reader : Reader α) : Reader α := fun tokens =>
  match reader tokens with
  | .ok value _ => .ok value tokens
  | .error halt _ => .error halt tokens

/-- One or more items, separated by commas. -/
@[specialize] def commaSeparated (item : Reader α) : (fuel : Nat) → Reader (List α)
  | 0 => outOfFuel
  | fuel + 1 => do
    let first ← item
    if (← currentKind) = .comma then
      let _ ← advance
      let others ← commaSeparated item fuel
      return first :: others
    else return [first]

/-- Items separated by commas, none at all if the closing token comes first. -/
@[inline] def listUntil (close : TokenKind) (item : Reader α) (fuel : Nat) :
    Reader (List α) := do
  if (← currentKind) = close then return []
  else commaSeparated item fuel

/-- Items until the source ends. -/
@[specialize] def untilEnd (item : Reader α) : (fuel : Nat) → Reader (List α)
  | 0 => outOfFuel
  | fuel + 1 => do
    if ← hasTokens then
      let first ← item
      let others ← untilEnd item fuel
      return first :: others
    else return []

end Reader

end IntScript
