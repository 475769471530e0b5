import IntScript.Evaluation.Machine
import IntScript.Grammar

/-!
# Running programs

A program is run by taking in its definitions in order and then evaluating the body of `main` in the
frame of the global variables.
-/

namespace IntScript.Session

/-- Takes in a definition.  The value of a global variable is computed first. -/
def define (fuel : Nat) : Definition → Run Unit
  | .function f => modify (·.defineFunction f)
  | .global name value => do
    let value ← evaluate fuel value
    modify (·.defineGlobal name value)

/-- Takes in definitions in order, up to the first that fails. -/
def register (fuel : Nat) : Program → Run Unit
  | [] => return
  | definition :: rest => do
    define fuel definition
    register fuel rest

/-- The function that a program starts with: `main`, which must not have parameters. -/
def entryPoint (session : Session) : Except RunFault Function :=
  match session.functions.get? "main" with
  | some function => if function.arity = 0 then .ok function else .error .missingEntryPoint
  | none => .error .missingEntryPoint

/-- Runs a program; its value is that of `main`. -/
def runProgram (fuel : Nat) (program : Program) : Run Int64 := do
  register fuel program
  let main ← entryPoint (← get)
  evaluate fuel main.body

/-- Runs the program in a source.  Nothing is evaluated if the source cannot be read. -/
def runSource (fuel : Nat) (source file : String) :
    StateT Session Option (Except Error Int64) := do
  match parseProgram source file with
  | .error error => return .error error
  | .ok program => return (← (runProgram fuel program).run).mapError Error.ofRun

/-- Evaluates lines in order, and yields the values of those before the first that fails, and its
fault. -/
def evaluateAll (fuel : Nat) : List Expr → StateT Session Option (List Int64 × Option RunFault)
  | [] => return ([], none)
  | expr :: rest => do
    match ← (evaluate fuel expr).run with
    | .error fault => return ([], some fault)
    | .ok value =>
      let (values, fault) ← evaluateAll fuel rest
      return (value :: values, fault)

end IntScript.Session
