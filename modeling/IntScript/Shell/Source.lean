import IntScript.Diagnostic
import IntScript.Expr.Layout
import IntScript.Grammar
import IntScript.Session.Program

/-!
# The command on a single source

What the command writes for a source: its tokens, its definitions, or what running it prints and
its value.  Evaluations take fuel; an absent report means that one of them did not end within it.
-/

namespace IntScript.Shell

open Text

/-- What is written to the standard output and the standard error. -/
structure Reply where
  stdout : String
  stderr : String

/-- What a finished command leaves behind. -/
structure Report extends Reply where
  exitCode : UInt8

/-- What to do with a source. -/
inductive Mode where
  | listTokens
  | listDefinitions
  | run
  deriving DecidableEq, Repr

/-- Why a text could not be read that is not the encoding of any. -/
def badEncoding : String := "stream did not contain valid UTF-8"

/-- The report of a command that succeeds. -/
def success (stdout : String) : Report :=
  { stdout, stderr := "", exitCode := 0 }

/-- The report of a command that fails. -/
def failure (stdout stderr : String) : Report :=
  { stdout, stderr, exitCode := 1 }

/-- The exit code of a command whose diagnostic breaks off. -/
def brokenOff : UInt8 := 101

/-- The report of a command that fails with a diagnostic. -/
def failureOf (stdout : String) (diagnostic : Diagnostic) : Report :=
  if diagnostic.breaksOff then { stdout, stderr := diagnostic.text, exitCode := brokenOff }
  else failure stdout diagnostic.text

/-- The report of an evaluation: what it prints, and then its value or what went wrong. -/
def ofOutcome (source : String) (result : Except Error Int64) (session : Session) : Report :=
  let written := session.output.written
  match result with
  | .ok value => success (written ++ decimal value ++ "\n")
  | .error error => failureOf written (error.diagnostic source)

/-- A new session that prints to the console. -/
def newSession (callLimit : Nat) : Session :=
  .initial callLimit (.console "")

/-- What the command does with a named source. -/
def ofSource (fuel callLimit : Nat) (mode : Mode) (source file : String) : Option Report :=
  match mode with
  | .listTokens =>
    match tokenize source file with
    | .ok tokens => some (success (String.join (tokens.map (·.describe ++ "\n"))))
    | .error error => some (failureOf "" (error.diagnostic source))
  | .listDefinitions =>
    match parseProgram source file with
    | .ok program => some (success program.toSource)
    | .error error => some (failureOf "" (error.diagnostic source))
  | .run => do
    let (result, session) ← (Session.runSource fuel source file).run (newSession callLimit)
    return ofOutcome source result session

/-- The name under which a source text given on the command line appears. -/
def inlineFile : String := "eval"

/-- The last component of a path, or the whole path if it ends in none that names a file. -/
def fileName (path : String) : String :=
  let components := (path.splitOn "/").filter fun component => component ≠ "" ∧ component ≠ "."
  match components.getLast? with
  | none | some ".." => path
  | some component => component

/-- What the command does with a file, given its bytes or the reason why there are none. -/
def ofFile (fuel callLimit : Nat) (mode : Mode) (path : String)
    (contents : Except String ByteArray) : Option Report :=
  let unreadable (reason : String) : Option Report :=
    some (failure "" ("Failed to read '" ++ path ++ "': " ++ reason ++ "\n"))
  match contents with
  | .error reason => unreadable reason
  | .ok bytes =>
    match String.fromUTF8? bytes with
    | none => unreadable badEncoding
    | some source => ofSource fuel callLimit mode source (fileName path)

/-- `(1 - 2 * 3) + 4`, which is evaluated when there is no source. -/
def sample : Expr :=
  .binary .add
    (.binary .subtract (.number 1) (.binary .multiply (.number 2) (.number 3))) (.number 4)

/-- What the command does without a source. -/
def ofNothing (fuel callLimit : Nat) : Option Report := do
  let (result, session) ← (Session.evaluate fuel sample).run (newSession callLimit)
  return ofOutcome "" (result.mapError Error.ofRun) session

end IntScript.Shell
