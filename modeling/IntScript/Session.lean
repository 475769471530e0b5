import IntScript.Environment
import IntScript.Output
import IntScript.Program

/-!
# Sessions

Everything that an evaluation can observe or change: the variables, the functions, how deep calls
may nest, and where output goes.  A session outlives the evaluations made in it.
-/

namespace IntScript

/-- The state of the language between and during evaluations. -/
structure Session where
  environment : Environment
  functions : Table Function
  /-- The number of calls that may be in progress at a time. -/
  callLimit : Nat
  output : Output
  deriving DecidableEq, Repr

namespace Session

/-- The number of calls that may be in progress unless another limit is asked for. -/
def defaultCallLimit : Nat := 10000

/-- A session in which nothing is defined. -/
def initial (callLimit : Nat) (output : Output) : Session :=
  ⟨.initial, .empty, callLimit, output⟩

/-- Sets a variable in a frame. -/
def setAt (session : Session) (index : Nat) (name : String) (value : Int64) : Session :=
  { session with environment := session.environment.setAt index name value }

/-- Prints a value. -/
def print (session : Session) (value : Int64) : Session :=
  { session with output := session.output.print value }

/-- Whether as many calls are in progress as the limit allows. -/
def isFull (session : Session) : Bool :=
  session.callLimit ≤ session.environment.depth

/-- Enters a call. -/
def enter (session : Session) (bindings : Table Int64) : Session :=
  { session with environment := session.environment.push bindings }

/-- Leaves a call that was entered from the frame `caller`. -/
def leave (session : Session) (caller : Nat) : Session :=
  { session with environment := session.environment.pop caller }

/-- Sets a global variable. -/
def defineGlobal (session : Session) (name : String) (value : Int64) : Session :=
  { session with environment := session.environment.defineGlobal name value }

/-- Defines a function, in the place of an older one of the same name. -/
def defineFunction (session : Session) (function : Function) : Session :=
  { session with functions := session.functions.insert function.name function }

end Session

end IntScript
