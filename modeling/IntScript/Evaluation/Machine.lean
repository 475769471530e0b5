import IntScript.Evaluation.Arithmetic
import IntScript.Evaluation.Call

/-!
# The evaluation machine

Evaluation proceeds in steps of a machine that keeps what remains to be done in a list of its own,
so that neither deeply nested expressions nor deeply nested calls need more than memory.  A machine
is in focus on an expression to evaluate or on the outcome of one; an outcome goes to the first
pending task, and a fault passes all of them by but for the calls, which it leaves.
-/

namespace IntScript

/-- What remains to be done once the outcome of an expression is known. -/
inductive Pending where
  /-- Assign the value. -/
  | assign (name : String)
  /-- The value is the left operand: evaluate the right one. -/
  | rightOperand (op : Operator) (right : Expr)
  /-- The value is the right operand: apply the operator. -/
  | apply (op : Operator) (left : Int64)
  /-- Evaluate the rest of a block; the value counts if there is none. -/
  | sequence (rest : List Expr)
  /-- The value decides a conditional. -/
  | branch (thenBody : Expr) (elseBody : Option Expr)
  /-- The value decides whether a loop goes on. -/
  | test (condition body : Expr)
  /-- The body of a loop is evaluated: test again. -/
  | again (condition body : Expr)
  /-- The value is the argument for a parameter of a call. -/
  | argument (function : Function) (bound : Table Int64) (parameter : String) (rest : Arguments)
  /-- The value is that of a call: leave it. -/
  | leave (caller : Nat)
  /-- Print the value. -/
  | print

/-- What a machine is about to do. -/
inductive Focus where
  | evaluate (expr : Expr)
  | outcome (result : Except RunFault Int64)
  /-- The search for a variable went astray, and there is no way to go on. -/
  | stuck

/-- An evaluation in progress. -/
structure Machine where
  focus : Focus
  pending : List Pending
  session : Session

namespace Machine

/-- Evaluates the remaining arguments of a call, or enters it if there are none. -/
def call (function : Function) (bound : Table Int64) (arguments : Arguments)
    (pending : List Pending) (session : Session) : Machine :=
  match arguments with
  | (parameter, argument) :: rest =>
    ⟨.evaluate argument, .argument function bound parameter rest :: pending, session⟩
  | [] =>
    if session.isFull then
      ⟨.outcome (.error (.stackExhausted session.callLimit)), pending, session⟩
    else
      ⟨.evaluate function.body, .leave session.environment.current :: pending,
        session.enter bound⟩

/-- The first step into an expression. -/
def descend (expr : Expr) (pending : List Pending) (session : Session) : Machine :=
  match expr with
  | .number value => ⟨.outcome (.ok value), pending, session⟩
  | .symbol name =>
    match session.environment.lookup name with
    | .found value => ⟨.outcome (.ok value), pending, session⟩
    | .unbound => ⟨.outcome (.error (.unbound name)), pending, session⟩
    | .astray => ⟨.stuck, pending, session⟩
  | .assign name value => ⟨.evaluate value, .assign name :: pending, session⟩
  | .binary op left right => ⟨.evaluate left, .rightOperand op right :: pending, session⟩
  | .block [] => ⟨.outcome (.ok 0), pending, session⟩
  | .block (first :: rest) => ⟨.evaluate first, .sequence rest :: pending, session⟩
  | .ifThen condition thenBody => ⟨.evaluate condition, .branch thenBody none :: pending, session⟩
  | .ifElse condition thenBody elseBody =>
    ⟨.evaluate condition, .branch thenBody (some elseBody) :: pending, session⟩
  | .loop condition body => ⟨.evaluate condition, .test condition body :: pending, session⟩
  | .call callee arguments =>
    match session.resolve callee arguments with
    | .error fault => ⟨.outcome (.error fault), pending, session⟩
    | .ok (function, arguments) => call function .empty arguments pending session
  | .labelledCall callee arguments =>
    match session.resolveLabelled callee arguments with
    | .error fault => ⟨.outcome (.error fault), pending, session⟩
    | .ok (function, arguments) => call function .empty arguments pending session
  | .println argument => ⟨.evaluate argument, .print :: pending, session⟩

/-- Hands a value to the pending task that waits for it. -/
def resume (value : Int64) (task : Pending) (pending : List Pending) (session : Session) :
    Machine :=
  match task with
  | .assign name =>
    match session.environment.target? name with
    | some index => ⟨.outcome (.ok value), pending, session.setAt index name value⟩
    | none => ⟨.stuck, pending, session⟩
  | .rightOperand op right => ⟨.evaluate right, .apply op value :: pending, session⟩
  | .apply op left => ⟨.outcome (op.apply left value), pending, session⟩
  | .sequence [] => ⟨.outcome (.ok value), pending, session⟩
  | .sequence (next :: rest) => ⟨.evaluate next, .sequence rest :: pending, session⟩
  | .branch thenBody elseBody =>
    if value ≠ 0 then ⟨.evaluate thenBody, pending, session⟩
    else
      match elseBody with
      | some elseBody => ⟨.evaluate elseBody, pending, session⟩
      | none => ⟨.outcome (.ok 1), pending, session⟩
  | .test condition body =>
    if value ≠ 0 then ⟨.evaluate body, .again condition body :: pending, session⟩
    else ⟨.outcome (.ok 1), pending, session⟩
  | .again condition body => ⟨.evaluate condition, .test condition body :: pending, session⟩
  | .argument function bound parameter rest =>
    call function (bound.insert parameter value) rest pending session
  | .leave caller => ⟨.outcome (.ok value), pending, session.leave caller⟩
  | .print => ⟨.outcome (.ok value), pending, session.print value⟩

/-- What a fault does to the session as it passes a pending task by. -/
def unwind (task : Pending) (session : Session) : Session :=
  match task with
  | .leave caller => session.leave caller
  | _ => session

/-- One step.  A machine with an outcome and nothing pending has come to its end, and one that is
stuck stays so. -/
def step (machine : Machine) : Machine :=
  match machine with
  | ⟨.evaluate expr, pending, session⟩ => descend expr pending session
  | ⟨.outcome (.ok value), task :: pending, session⟩ => resume value task pending session
  | ⟨.outcome (.error fault), task :: pending, session⟩ =>
    ⟨.outcome (.error fault), pending, unwind task session⟩
  | ⟨.outcome result, [], session⟩ => ⟨.outcome result, [], session⟩
  | ⟨.stuck, pending, session⟩ => ⟨.stuck, pending, session⟩

/-- The outcome of a machine that comes to its end within `fuel` steps, and the session it leaves.
A machine that gets stuck has no outcome. -/
def run : (fuel : Nat) → Machine → Option (Except RunFault Int64 × Session)
  | 0, _ => none
  | fuel + 1, machine =>
    match machine with
    | ⟨.outcome result, [], session⟩ => some (result, session)
    | ⟨.stuck, _, _⟩ => none
    | machine => run fuel machine.step

end Machine

namespace Session

/-- A computation in a session, which may fail and may run out of fuel. -/
abbrev Run (α : Type) := ExceptT RunFault (StateT Session Option) α

/-- The value of an expression in the current frame, if the evaluation ends within `fuel` steps. -/
def evaluate (fuel : Nat) (expr : Expr) : Run Int64 := fun session =>
  Machine.run fuel ⟨.evaluate expr, [], session⟩

end Session

end IntScript
