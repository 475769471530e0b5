import IntScript.Proofs.Evaluation.StackDiscipline

/-!
# Dynamic scoping

The meaning of variables without frames, indices and parents.  What can be seen is a list of tables
of values, the innermost first and the global one last.  A name has the value in the first table
that binds it.  An assignment sets it there, or in the innermost table if no table binds it.  A call
evaluates its arguments in order, puts a new table with the parameters in front of the list for its
body, and drops that table afterwards, however the body ends.

`Scopes` holds the list with these operations.  `Scoped.Machine` is an evaluator over it.  It has
steps, so that it can be compared with another evaluator while the two are under way, and no search
in it can go astray.  `Scoped.performAll` is a whole session: programs are taken in or run and
expressions are evaluated, one after the other.
-/

namespace IntScript

/-- The variables that can be seen, the innermost scope first and the global one last. -/
abbrev Scopes := List (Table Int64)

namespace Scopes

/-- The value of a name in the first scope that binds it. -/
def lookup (name : String) : Scopes → Option Int64
  | [] => none
  | scope :: outer =>
    match scope.get? name with
    | some value => some value
    | none => lookup name outer

/-- The scopes with the value of a name set in the first one that binds it, if any does. -/
def update? (name : String) (value : Int64) : Scopes → Option Scopes
  | [] => none
  | scope :: outer =>
    if scope.contains name then some (scope.insert name value :: outer)
    else (update? name value outer).map (scope :: ·)

/-- The scopes with the value of a name set in the innermost one. -/
def bindInnermost (name : String) (value : Int64) : Scopes → Scopes
  | [] => []
  | scope :: outer => scope.insert name value :: outer

/-- The scopes with the value of a name set in the global one. -/
def bindGlobal (name : String) (value : Int64) : Scopes → Scopes
  | [] => []
  | [globals] => [globals.insert name value]
  | scope :: next :: outer => scope :: bindGlobal name value (next :: outer)

/-- The scopes after an assignment. -/
def assign (name : String) (value : Int64) (scopes : Scopes) : Scopes :=
  (update? name value scopes).getD (bindInnermost name value scopes)

end Scopes

namespace Scoped

/-- What an evaluation can observe or change. -/
structure State where
  scopes : Scopes
  functions : Table Function
  callLimit : Nat
  output : Output

namespace State

/-- A state in which nothing is defined. -/
def initial (callLimit : Nat) (output : Output) : State :=
  ⟨[.empty], .empty, callLimit, output⟩

/-- Matches a positional call with the function it names. -/
def resolve (state : State) (callee : String) (arguments : List Expr) :
    Except RunFault (Function × Arguments) :=
  match state.functions.get? callee with
  | none => .error (.undefinedFunction callee)
  | some function =>
    if function.arity = arguments.length then
      .ok (function, function.parameters.zip arguments)
    else .error (.arity callee function.arity arguments.length)

/-- Matches a labelled call with the function it names. -/
def resolveLabelled (state : State) (callee : String) (arguments : Arguments) :
    Except RunFault (Function × Arguments) :=
  match state.functions.get? callee with
  | none => .error (.undefinedFunction callee)
  | some function => (function.matchLabels arguments).map (function, ·)

/-- Sets a variable. -/
def assign (state : State) (name : String) (value : Int64) : State :=
  { state with scopes := state.scopes.assign name value }

/-- Prints a value. -/
def print (state : State) (value : Int64) : State :=
  { state with output := state.output.print value }

/-- Puts a scope in front of the others. -/
def enter (state : State) (scope : Table Int64) : State :=
  { state with scopes := scope :: state.scopes }

/-- Drops the innermost scope. -/
def leave (state : State) : State :=
  { state with scopes := state.scopes.tail }

end State

/-! ## Evaluation -/

/-- What remains to be done once the outcome of an expression is known. -/
inductive Task where
  | assign (name : String)
  | rightOperand (op : Operator) (right : Expr)
  | apply (op : Operator) (left : Int64)
  | sequence (rest : List Expr)
  | branch (thenBody : Expr) (elseBody : Option Expr)
  | test (condition body : Expr)
  | again (condition body : Expr)
  | argument (function : Function) (bound : Table Int64) (parameter : String) (rest : Arguments)
  /-- The outcome is that of a call. -/
  | leave
  | print

/-- An evaluation in progress. -/
structure Machine where
  focus : Focus
  tasks : List Task
  state : State

namespace Machine

/-- Evaluates the remaining arguments of a call and then the body, in a scope of its own, unless as
many calls are in progress as the limit allows. -/
def call (function : Function) (bound : Table Int64) (arguments : Arguments) (tasks : List Task)
    (state : State) : Machine :=
  match arguments with
  | (parameter, argument) :: rest =>
    ⟨.evaluate argument, .argument function bound parameter rest :: tasks, state⟩
  | [] =>
    if state.callLimit < state.scopes.length then
      ⟨.outcome (.error (.stackExhausted state.callLimit)), tasks, state⟩
    else ⟨.evaluate function.body, .leave :: tasks, state.enter bound⟩

/-- The first step into an expression. -/
def descend (expr : Expr) (tasks : List Task) (state : State) : Machine :=
  match expr with
  | .number value => ⟨.outcome (.ok value), tasks, state⟩
  | .symbol name =>
    match state.scopes.lookup name with
    | some value => ⟨.outcome (.ok value), tasks, state⟩
    | none => ⟨.outcome (.error (.unbound name)), tasks, state⟩
  | .assign name value => ⟨.evaluate value, .assign name :: tasks, state⟩
  | .binary op left right => ⟨.evaluate left, .rightOperand op right :: tasks, state⟩
  | .block [] => ⟨.outcome (.ok 0), tasks, state⟩
  | .block (first :: rest) => ⟨.evaluate first, .sequence rest :: tasks, state⟩
  | .ifThen condition thenBody => ⟨.evaluate condition, .branch thenBody none :: tasks, state⟩
  | .ifElse condition thenBody elseBody =>
    ⟨.evaluate condition, .branch thenBody (some elseBody) :: tasks, state⟩
  | .loop condition body => ⟨.evaluate condition, .test condition body :: tasks, state⟩
  | .call callee arguments =>
    match state.resolve callee arguments with
    | .error fault => ⟨.outcome (.error fault), tasks, state⟩
    | .ok (function, arguments) => call function .empty arguments tasks state
  | .labelledCall callee arguments =>
    match state.resolveLabelled callee arguments with
    | .error fault => ⟨.outcome (.error fault), tasks, state⟩
    | .ok (function, arguments) => call function .empty arguments tasks state
  | .println argument => ⟨.evaluate argument, .print :: tasks, state⟩

/-- Hands a value to the task that waits for it. -/
def resume (value : Int64) (task : Task) (tasks : List Task) (state : State) : Machine :=
  match task with
  | .assign name => ⟨.outcome (.ok value), tasks, state.assign name value⟩
  | .rightOperand op right => ⟨.evaluate right, .apply op value :: tasks, state⟩
  | .apply op left => ⟨.outcome (op.apply left value), tasks, state⟩
  | .sequence [] => ⟨.outcome (.ok value), tasks, state⟩
  | .sequence (next :: rest) => ⟨.evaluate next, .sequence rest :: tasks, state⟩
  | .branch thenBody elseBody =>
    if value ≠ 0 then ⟨.evaluate thenBody, tasks, state⟩
    else
      match elseBody with
      | some elseBody => ⟨.evaluate elseBody, tasks, state⟩
      | none => ⟨.outcome (.ok 1), tasks, state⟩
  | .test condition body =>
    if value ≠ 0 then ⟨.evaluate body, .again condition body :: tasks, state⟩
    else ⟨.outcome (.ok 1), tasks, state⟩
  | .again condition body => ⟨.evaluate condition, .test condition body :: tasks, state⟩
  | .argument function bound parameter rest =>
    call function (bound.insert parameter value) rest tasks state
  | .leave => ⟨.outcome (.ok value), tasks, state.leave⟩
  | .print => ⟨.outcome (.ok value), tasks, state.print value⟩

/-- One step.  A fault passes the tasks by, and drops the scopes of the calls among them. -/
def step (machine : Machine) : Machine :=
  match machine with
  | ⟨.evaluate expr, tasks, state⟩ => descend expr tasks state
  | ⟨.outcome (.ok value), task :: tasks, state⟩ => resume value task tasks state
  | ⟨.outcome (.error fault), .leave :: tasks, state⟩ =>
    ⟨.outcome (.error fault), tasks, state.leave⟩
  | ⟨.outcome (.error fault), _ :: tasks, state⟩ => ⟨.outcome (.error fault), tasks, state⟩
  | machine => machine

/-- The machine after so many steps. -/
def afterSteps : Nat → Machine → Machine
  | 0, machine => machine
  | steps + 1, machine => afterSteps steps machine.step

/-- The outcome of a machine that comes to its end within `fuel` steps, and the state it leaves. -/
def run : (fuel : Nat) → Machine → Option (Except RunFault Int64 × State)
  | 0, _ => none
  | fuel + 1, machine =>
    match machine with
    | ⟨.outcome result, [], state⟩ => some (result, state)
    | machine => run fuel machine.step

end Machine

/-! ## Sessions -/

/-- A computation on a state, which may fail and may run out of fuel. -/
abbrev Run (α : Type) := ExceptT RunFault (StateT State Option) α

/-- The value of an expression. -/
def evaluate (fuel : Nat) (expr : Expr) : Run Int64 := fun state =>
  Machine.run fuel ⟨.evaluate expr, [], state⟩

/-- Takes in a definition: a function, or a global variable with its first value. -/
def define (fuel : Nat) : Definition → Run Unit
  | .function f => modify fun state =>
    { state with functions := state.functions.insert f.name f }
  | .global name value => do
    let value ← evaluate fuel value
    modify fun state => { state with scopes := state.scopes.bindGlobal name value }

/-- Takes in definitions in order, up to the first that fails. -/
def register (fuel : Nat) : Program → Run Unit
  | [] => return
  | definition :: rest => do
    define fuel definition
    register fuel rest

/-- Takes in a program and evaluates the body of its `main`, which must not have parameters. -/
def runProgram (fuel : Nat) (program : Program) : Run Int64 := do
  register fuel program
  match (← get).functions.get? "main" with
  | some main => if main.arity = 0 then evaluate fuel main.body else throw .missingEntryPoint
  | none => throw .missingEntryPoint

/-- The value of an operation on a session.  Taking in definitions has none. -/
def perform (fuel : Nat) : Session.Operation → Run (Option Int64)
  | .register program => do
    register fuel program
    return none
  | .runProgram program => do
    let value ← runProgram fuel program
    return some value
  | .evaluate expr => do
    let value ← evaluate fuel expr
    return some value

/-- The outcomes of operations that are performed in order, whether they succeed or fail. -/
def performAll (fuel : Nat) :
    List Session.Operation → StateT State Option (List (Except RunFault (Option Int64)))
  | [] => return []
  | operation :: rest => do
    let outcome ← (perform fuel operation).run
    let outcomes ← performAll fuel rest
    return outcome :: outcomes

end Scoped

end IntScript
