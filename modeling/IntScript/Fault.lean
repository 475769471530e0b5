import IntScript.Position
import IntScript.Text.Decimal
import IntScript.Text.Quoted

/-!
# What can go wrong

A `ParseFault` is a reason why a text is not a program, a `RunFault` a reason why a program has no
value.  The two are separate types, so that reading cannot fail for a reason of evaluation nor the
other way round.  An `Error` is either of them at a position, and this module holds all its wording:
`name` is its class, `detail` the statement of fact, `message` the full sentence and `tip` the
advice shown to a person.
-/

namespace IntScript

open Text

/-- Why a text cannot be read.  Each cause carries the text of the token it is about. -/
inductive ParseFault where
  /-- No token starts with this character. -/
  | unrecognised (token : String)
  /-- The token cannot stand here. -/
  | unexpected (token : String)
  /-- The token cannot stand here, and something particular was expected instead. -/
  | unexpectedInstead (token expectation : String)
  /-- The numeral exceeds the largest value. -/
  | numeral (token : String)
  /-- The token starts no definition. -/
  | trailing (token : String)
  deriving DecidableEq, Repr

/-- Why an evaluation has no value. -/
inductive RunFault where
  | unbound (name : String)
  | undefinedFunction (function : String)
  /-- A positional call gives the wrong number of arguments. -/
  | arity (function : String) (expected received : Nat)
  /-- A labelled call does not name this parameter. -/
  | missingLabel (function label : String)
  /-- A labelled call names a parameter that the function does not have. -/
  | unknownLabel (function label : String)
  /-- A labelled call names a parameter twice. -/
  | duplicateLabel (function label : String)
  | divisionByZero
  /-- There is no function `main` without parameters. -/
  | missingEntryPoint
  /-- A call would nest deeper than the limit. -/
  | stackExhausted (limit : Nat)
  deriving DecidableEq, Repr

/-- The cause of an error, from either stage. -/
inductive Cause where
  | parse (fault : ParseFault)
  | run (fault : RunFault)
  deriving DecidableEq, Repr

/-- A cause and where it arose. -/
structure Error where
  cause : Cause
  position : Position
  deriving DecidableEq, Repr

/-! ## Wording -/

namespace ParseFault

/-- The class of the fault. -/
def name : ParseFault → String
  | unrecognised _ => "UnrecognisedToken"
  | unexpected _ => "UnexpectedToken"
  | unexpectedInstead _ _ => "UnexpectedTokenDetailed"
  | numeral _ => "NumberParseError"
  | trailing _ => "TrailingInput"

/-- The statement of fact, with program text quoted. -/
def detail : ParseFault → String
  | unrecognised token => "unrecognised token: " ++ quoted token
  | unexpected token => "unexpected token: " ++ quoted token
  | unexpectedInstead token expectation =>
    "unexpected token (" ++ quoted expectation ++ "): " ++ quoted token
  | numeral token => "error parsing number: " ++ quoted token
  | trailing token => "trailing input starting at " ++ quoted token

/-- The advice shown with the fault, if there is any. -/
def tip : ParseFault → Option String
  | unrecognised _ => none
  | unexpected token => some ("Unexpected token: `" ++ token ++ "`, did you miss a semicolon?")
  | unexpectedInstead token expectation =>
    some ("Unexpected token: `" ++ token ++ "`, " ++ expectation)
  | numeral token =>
    some ("Invalid number: `" ++ token ++ "`, is it above the integer limit?")
  | trailing token =>
    some ("Unexpected `" ++ token ++ "` at top level, expected `define` or `global`")

end ParseFault

namespace RunFault

/-- The class of the fault. -/
def name : RunFault → String
  | unbound _ => "UnboundNameError"
  | undefinedFunction _ => "UndefinedFunctionError"
  | arity _ _ _ => "ArityError"
  | missingLabel _ _ => "MissingLabelError"
  | unknownLabel _ _ => "UnknownLabelError"
  | duplicateLabel _ _ => "DuplicateLabelError"
  | divisionByZero => "ArithmeticError"
  | missingEntryPoint => "MissingEntryPointError"
  | stackExhausted _ => "StackExhaustedError"

/-- The statement of fact, with names quoted. -/
def detail : RunFault → String
  | unbound name => "name " ++ quoted name ++ " is not bound"
  | undefinedFunction function => "function " ++ quoted function ++ " is not defined"
  | arity function expected received =>
    "function " ++ quoted function ++ " expects " ++ decimalNat expected ++
      " arguments, received " ++ decimalNat received
  | missingLabel function label =>
    "call to " ++ quoted function ++ " is missing label " ++ quoted label
  | unknownLabel function label =>
    "function " ++ quoted function ++ " has no parameter " ++ quoted label
  | duplicateLabel function label =>
    "label " ++ quoted label ++ " given more than once in call to " ++ quoted function
  | divisionByZero => "division by zero"
  | missingEntryPoint => "program has no zero-argument main() function"
  | stackExhausted limit => "call depth exceeded " ++ decimalNat limit

/-- The advice shown with the fault. -/
def tip : RunFault → String
  | unbound name => "Variable `" ++ name ++ "` is not bound in any scope"
  | undefinedFunction function => "Function `" ++ function ++ "` is not defined"
  | arity function expected received =>
    "Function `" ++ function ++ "` expects " ++ decimalNat expected ++ " arguments, received " ++
      decimalNat received
  | missingLabel function label =>
    "Call to `" ++ function ++ "` is missing a value for parameter `" ++ label ++ "`"
  | unknownLabel function label =>
    "Function `" ++ function ++ "` has no parameter named `" ++ label ++ "`"
  | duplicateLabel function label =>
    "Parameter `" ++ label ++ "` of `" ++ function ++ "` is given more than once"
  | divisionByZero => "Division by zero"
  | missingEntryPoint => "Define a `main()` function taking no parameters"
  | stackExhausted limit =>
    "Call depth exceeded " ++ decimalNat limit ++ ", is there unbounded recursion?"

end RunFault

namespace Cause

/-- The class of the cause. -/
def name : Cause → String
  | parse fault => fault.name
  | run fault => fault.name

/-- The statement of fact. -/
def detail : Cause → String
  | parse fault => fault.detail
  | run fault => fault.detail

/-- The advice shown with the cause, if there is any. -/
def tip : Cause → Option String
  | parse fault => fault.tip
  | run fault => some fault.tip

/-- Whether the cause arises from evaluation. -/
def isRuntime : Cause → Bool
  | parse _ => false
  | run _ => true

end Cause

namespace Error

/-- The error of an evaluation, which has no place in the source. -/
def ofRun (fault : RunFault) : Error := ⟨.run fault, .absent⟩

/-- The full sentence: the class, the fact, and the place unless it is absent. -/
def message (error : Error) : String :=
  let statement := error.cause.name ++ ": " ++ error.cause.detail
  if error.position.isAbsent then statement
  else statement ++ " at " ++ error.position.file ++ ":" ++
    decimalNat error.position.offset.toNat

end Error

end IntScript
