import IntScript.Shell.Source
import IntScript.Text.Lines

/-!
# Interactive sessions

A session takes in one line at a time.  A line whose first word introduces a definition is read as
definitions, any other as statements, of which the last value is shown.  What fails is reported, and
the session goes on with the next line.
-/

namespace IntScript.Shell

open Text

/-- What is shown before a line is read. -/
def prompt : String := "> "

/-- Whether a line holds definitions: whether its first word introduces one. -/
def holdsDefinitions (line : String) : Bool :=
  let word := String.ofList ((trimStart line.toList).takeWhile isWordChar)
  word == Keyword.define.word || word == Keyword.global.word

/-- The reply to a line. -/
structure Answer extends Reply where
  /-- Whether the session cannot go on, because a diagnostic breaks off. -/
  isLast : Bool

/-- The answer that shows a value, or nothing. -/
def answerOf (shown : String) : Answer :=
  { stdout := shown, stderr := "", isLast := false }

/-- The answer to an error in a line. -/
def answerOfError (line : String) (error : Error) : Answer :=
  let diagnostic := error.diagnostic line
  { stdout := "", stderr := diagnostic.text, isLast := diagnostic.breaksOff }

/-- Takes in the definitions in a line, or evaluates its statements. -/
def evaluateLine (fuel : Nat) (line : String) : StateT Session Option Answer := do
  if holdsDefinitions line then
    match parseProgram line Lexer.defaultFile with
    | .error error => return answerOfError line error
    | .ok program =>
      match ← (Session.register fuel program).run with
      | .error fault => return answerOfError line (.ofRun fault)
      | .ok () => return answerOf ""
  else
    match parseStatements line Lexer.defaultFile with
    | .error error => return answerOfError line error
    | .ok body =>
      let (values, fault) ← Session.evaluateAll fuel body
      match fault, values.getLast? with
      | some fault, _ => return answerOfError line (.ofRun fault)
      | none, some value => return answerOf (decimal value ++ "\n")
      | none, none => return answerOf ""

/-- The answer to a line, with what the evaluations print before their value. -/
def answer (fuel : Nat) (line : String) : StateT Session Option Answer := do
  let answer ← evaluateLine fuel line
  let written := (← get).output.written
  modify fun session => { session with output := session.output.flush }
  return { answer with stdout := written ++ answer.stdout }

/-- What is reported for a line that is not the encoding of a text, which ends the session. -/
def unreadableLine : String := "Failed to read input: " ++ badEncoding ++ "\n"

/-- An interactive session over the given lines, up to the first that is not the encoding of a
text. -/
def converse (fuel : Nat) (session : Session) (before : Reply) :
    List (List UInt8) → Option Report
  | [] => some { before with stdout := before.stdout ++ prompt, exitCode := 0 }
  | bytes :: rest =>
    match String.fromUTF8? ⟨bytes.toArray⟩ with
    | none => some (failure (before.stdout ++ prompt) (before.stderr ++ unreadableLine))
    | some line =>
      match (answer fuel line).run session with
      | none => none
      | some (answer, session) =>
        let shown := ⟨before.stdout ++ prompt ++ answer.stdout, before.stderr ++ answer.stderr⟩
        if answer.isLast then some { shown with exitCode := brokenOff }
        else converse fuel session shown rest

/-- An interactive session over the bytes of an input. -/
def ofInput (fuel callLimit : Nat) (input : ByteArray) : Option Report :=
  converse fuel (newSession callLimit) ⟨"", ""⟩ (splitAfter 10 input.toList)

end IntScript.Shell
