import IntScript.Fault
import IntScript.Session

/-!
# Calls

Before any argument is evaluated, a call is matched with the function it names: the result is the
function and the expression for each of its parameters, in the order of the parameters.
-/

namespace IntScript

/-- The parameters of a function with the expressions for them, in the order of evaluation. -/
abbrev Arguments := List (String × Expr)

namespace Function

/-- Checks labels one by one: each must name a parameter and none may be repeated.  `seen` holds the
labels before them. -/
def checkLabels (function : Function) (seen : List String) :
    Arguments → Except RunFault Unit
  | [] => .ok ()
  | (label, _) :: rest =>
    if label ∉ function.parameters then .error (.unknownLabel function.name label)
    else if label ∈ seen then .error (.duplicateLabel function.name label)
    else function.checkLabels (label :: seen) rest

/-- The arguments in the order of the given parameters, each of which must be among the labels. -/
def orderLabels (function : Function) (arguments : Arguments) :
    (parameters : List String) → Except RunFault Arguments
  | [] => .ok []
  | parameter :: rest =>
    match arguments.lookup parameter with
    | none => .error (.missingLabel function.name parameter)
    | some argument => (function.orderLabels arguments rest).map ((parameter, argument) :: ·)

/-- Labelled arguments in the order of the parameters. -/
def matchLabels (function : Function) (arguments : Arguments) : Except RunFault Arguments := do
  function.checkLabels [] arguments
  function.orderLabels arguments function.parameters

end Function

namespace Session

/-- The function of a name. -/
def function (session : Session) (name : String) : Except RunFault Function :=
  match session.functions.get? name with
  | some function => .ok function
  | none => .error (.undefinedFunction name)

/-- Matches a positional call. -/
def resolve (session : Session) (callee : String) (arguments : List Expr) :
    Except RunFault (Function × Arguments) := do
  let function ← session.function callee
  if function.arity = arguments.length then
    return (function, function.parameters.zip arguments)
  else throw (.arity callee function.arity arguments.length)

/-- Matches a labelled call. -/
def resolveLabelled (session : Session) (callee : String) (arguments : Arguments) :
    Except RunFault (Function × Arguments) := do
  let function ← session.function callee
  return (function, ← function.matchLabels arguments)

end Session

end IntScript
