import IntScript.Grammar.Progress

/-!
# Reading source text

`parseProgram` reads a source that holds definitions, `parseStatements` one that holds lines.  Both
give the readers fuel in proportion to the number of tokens, which `Reader.Advances` shows to be
enough, so that the only failures are the faults of the text.
-/

namespace IntScript

/-- Fuel enough to read all of the tokens. -/
def Tokens.fuel (tokens : Tokens) : Nat :=
  5 * tokens.count + 5

namespace Reader

/-- What a reader makes of tokens for which it has fuel enough. -/
def result {α : Type} {k : Nat} (reader : Reader α) (tokens : Tokens)
    (advances : Advances k reader tokens) : Except Error α :=
  match outcome : reader tokens with
  | .ok value _ => .ok value
  | .error (.fault error) _ => .error error
  | .error .outOfFuel _ => False.elim (by rwa [Advances, outcome] at advances)

/-- Reads definitions until the source ends. -/
def program (vocabulary : Vocabulary) (fuel : Nat) : Reader Program :=
  untilEnd (definition vocabulary fuel) fuel

/-- Reads lines until the source ends. -/
def statements (vocabulary : Vocabulary) (fuel : Nat) : Reader (List Expr) :=
  untilEnd (line vocabulary fuel) fuel

theorem Advances.program {vocabulary : Vocabulary} {tokens : Tokens} :
    Advances 0 (Reader.program vocabulary tokens.fuel) tokens :=
  untilEnd (by simp only [Tokens.fuel]; omega) fun left hleft =>
    definition (by simp only [Tokens.fuel]; omega)

theorem Advances.statements {vocabulary : Vocabulary} {tokens : Tokens} :
    Advances 0 (Reader.statements vocabulary tokens.fuel) tokens :=
  untilEnd (by simp only [Tokens.fuel]; omega) fun left hleft =>
    line (by simp only [Tokens.fuel]; omega)

end Reader

/-- The definitions in a source. -/
def parseProgram (source file : String) : Except Error Program :=
  let tokens := Tokens.ofSource source file
  (Reader.program .full tokens.fuel).result tokens .program

/-- The lines in a source. -/
def parseStatements (source file : String) : Except Error (List Expr) :=
  let tokens := Tokens.ofSource source file
  (Reader.statements .full tokens.fuel).result tokens .statements

end IntScript
