import Mathlib.Data.List.Basic
import Mathlib.Logic.Equiv.Basic
import IntScript.Proofs.Evaluation.StackDiscipline

/-!
# Renaming

Names matter to an evaluation only in so far as they are the same or not, and the names of variables
and those of functions have nothing to do with each other.  A `Renaming` gives every variable,
parameter and label a new name, and every function one, such that different names stay different and
`main` stays `main`.  It applies to all that has names: expressions, functions, tables, faults,
sessions, and machines in the middle of an evaluation.

* `Machine.step_rename` : a step of the renamed machine leads to the renamed machine.  Tables are
  searched by equality (`Table.get?_rename`), and so are lists of labels
  (`Function.matchLabels_rename`).
* `Session.Equivariant` : what holds of evaluations holds of computations made of them.
* `runProgram_rename` : the main result.
-/

namespace IntScript

/-- New names for variables, parameters and labels, and new names for functions. -/
structure Renaming where
  ofVariable : String → String
  ofFunction : String → String
  ofVariable_injective : Function.Injective ofVariable
  ofFunction_injective : Function.Injective ofFunction
  ofFunction_main : ofFunction "main" = "main"

/-! ## What has names -/

namespace Expr

mutual

/-- The expression with new names. -/
def rename (r : Renaming) : Expr → Expr
  | number value => number value
  | symbol name => symbol (r.ofVariable name)
  | assign name value => assign (r.ofVariable name) (value.rename r)
  | binary op left right => binary op (left.rename r) (right.rename r)
  | block body => block (renameAll r body)
  | ifThen condition thenBody => ifThen (condition.rename r) (thenBody.rename r)
  | ifElse condition thenBody elseBody =>
    ifElse (condition.rename r) (thenBody.rename r) (elseBody.rename r)
  | loop condition body => loop (condition.rename r) (body.rename r)
  | call callee arguments => call (r.ofFunction callee) (renameAll r arguments)
  | labelledCall callee arguments => labelledCall (r.ofFunction callee) (renameLabelled r arguments)
  | println argument => println (argument.rename r)

/-- The expressions with new names. -/
def renameAll (r : Renaming) : List Expr → List Expr
  | [] => []
  | expr :: rest => expr.rename r :: renameAll r rest

/-- The labelled expressions with new names, and with new labels. -/
def renameLabelled (r : Renaming) : List (String × Expr) → List (String × Expr)
  | [] => []
  | (label, expr) :: rest => (r.ofVariable label, expr.rename r) :: renameLabelled r rest

end

theorem renameAll_eq_map (r : Renaming) (exprs : List Expr) :
    renameAll r exprs = exprs.map (rename r) := by
  induction exprs with
  | nil => rfl
  | cons expr rest ih => rw [renameAll, ih, List.map_cons]

theorem renameLabelled_eq_map (r : Renaming) (exprs : List (String × Expr)) :
    renameLabelled r exprs = exprs.map fun entry => (r.ofVariable entry.1, entry.2.rename r) := by
  induction exprs with
  | nil => rfl
  | cons entry rest ih => rw [renameLabelled, ih, List.map_cons]

end Expr

/-- The function with new names. -/
def Function.rename (r : Renaming) (function : Function) : Function :=
  ⟨r.ofFunction function.name, function.parameters.map r.ofVariable, function.body.rename r⟩

/-- The definition with new names. -/
def Definition.rename (r : Renaming) : Definition → Definition
  | global name value => global (r.ofVariable name) (value.rename r)
  | function f => function (f.rename r)

/-- The program with new names. -/
def Program.rename (r : Renaming) (program : Program) : Program :=
  program.map (Definition.rename r)

/-- The fault with new names. -/
def RunFault.rename (r : Renaming) : RunFault → RunFault
  | unbound name => unbound (r.ofVariable name)
  | undefinedFunction function => undefinedFunction (r.ofFunction function)
  | arity function expected received => arity (r.ofFunction function) expected received
  | missingLabel function label => missingLabel (r.ofFunction function) (r.ofVariable label)
  | unknownLabel function label => unknownLabel (r.ofFunction function) (r.ofVariable label)
  | duplicateLabel function label => duplicateLabel (r.ofFunction function) (r.ofVariable label)
  | divisionByZero => divisionByZero
  | missingEntryPoint => missingEntryPoint
  | stackExhausted limit => stackExhausted limit

/-- The table with new names for its entries, and with other values. -/
def Table.rename {α β : Type} (names : String → String) (values : α → β) (table : Table α) :
    Table β :=
  ⟨table.entries.map fun entry => (names entry.1, values entry.2)⟩

/-- The environment with new names for its variables. -/
def Environment.rename (names : String → String) (environment : Environment) : Environment :=
  { environment with
    frames := environment.frames.map fun frame =>
      { frame with bindings := frame.bindings.rename names id } }

/-- The session with new names. -/
def Session.rename (r : Renaming) (session : Session) : Session :=
  { session with
    environment := session.environment.rename r.ofVariable
    functions := session.functions.rename r.ofFunction (Function.rename r) }

/-- What remains to be done, with new names. -/
def Pending.rename (r : Renaming) : Pending → Pending
  | assign name => assign (r.ofVariable name)
  | rightOperand op right => rightOperand op (right.rename r)
  | apply op left => apply op left
  | sequence rest => sequence (rest.map (Expr.rename r))
  | branch thenBody elseBody => branch (thenBody.rename r) (elseBody.map (Expr.rename r))
  | test condition body => test (condition.rename r) (body.rename r)
  | again condition body => again (condition.rename r) (body.rename r)
  | argument function bound parameter rest =>
    argument (function.rename r) (bound.rename r.ofVariable id) (r.ofVariable parameter)
      (Expr.renameLabelled r rest)
  | leave caller => leave caller
  | print => print

/-- What a machine is about to do, with new names. -/
def Focus.rename (r : Renaming) : Focus → Focus
  | evaluate expr => evaluate (expr.rename r)
  | outcome result => outcome (result.mapError (RunFault.rename r))
  | stuck => stuck

/-- The machine with new names. -/
def Machine.rename (r : Renaming) (machine : Machine) : Machine :=
  ⟨machine.focus.rename r, machine.pending.map (Pending.rename r), machine.session.rename r⟩

/-! ## Searches -/

section

variable {α β : Type} {names : String → String} (hnames : Function.Injective names)
  (values : α → β)

include hnames

theorem lookup_map (name : String) (entries : List (String × α)) :
    (entries.map fun entry => (names entry.1, values entry.2)).lookup (names name) =
      (entries.lookup name).map values := by
  induction entries with
  | nil => rfl
  | cons entry rest ih =>
      rw [List.map_cons, List.lookup_cons, List.lookup_cons, ih]
      by_cases h : name = entry.1
      · simp [h]
      · have hnew : names name ≠ names entry.1 := hnames.ne h
        rw [beq_false_of_ne h, beq_false_of_ne hnew]

namespace Table

theorem get?_rename (table : Table α) (name : String) :
    (table.rename names values).get? (names name) = (table.get? name).map values :=
  lookup_map hnames values name table.entries

omit hnames in
/-- Nothing but new names is bound. -/
theorem get?_rename_of_ne (table : Table α) {name : String} (h : ∀ old, name ≠ names old) :
    (table.rename names values).get? name = none := by
  refine List.lookup_eq_none_iff.mpr fun entry hentry => ?_
  obtain ⟨old, -, rfl⟩ := List.mem_map.mp hentry
  exact bne_iff_ne.mpr (h old.1)

theorem contains_rename (table : Table α) (name : String) :
    (table.rename names values).contains (names name) = table.contains name := by
  rw [contains, contains, get?_rename hnames, Option.isSome_map]

theorem insert_rename (table : Table α) (name : String) (value : α) :
    (table.rename names values).insert (names name) (values value) =
      (table.insert name value).rename names values := by
  suffices ∀ entries : List (String × α),
      insertEntry (names name) (values value)
          (entries.map fun entry => (names entry.1, values entry.2)) =
        (insertEntry name value entries).map fun entry => (names entry.1, values entry.2) from
    congrArg Table.mk (this table.entries)
  intro entries
  induction entries with
  | nil => rfl
  | cons entry rest ih =>
      rw [List.map_cons, insertEntry, insertEntry, ih]
      by_cases h : name = entry.1
      · simp [h]
      · have hnew : names name ≠ names entry.1 := hnames.ne h
        rw [beq_false_of_ne h, beq_false_of_ne hnew]
        rfl

end Table

end

namespace Environment

variable {names : String → String} (hnames : Function.Injective names) (environment : Environment)
  (name : String)

theorem size_rename (names : String → String) :
    (environment.rename names).frames.size = environment.frames.size :=
  Array.size_map

theorem getElem?_rename (names : String → String) (index : Nat) :
    (environment.rename names).frames[index]? = environment.frames[index]?.map fun frame =>
      { frame with bindings := frame.bindings.rename names id } :=
  Array.getElem?_map

include hnames

theorem findFrom_rename (fuel index : Nat) :
    findFrom (environment.rename names).frames (names name) fuel index =
      findFrom environment.frames name fuel index := by
  induction fuel generalizing index with
  | zero => rfl
  | succ fuel ih =>
      rw [findFrom, findFrom, getElem?_rename]
      cases environment.frames[index]? with
      | none => rfl
      | some frame =>
          simp only [Option.map_some, Table.contains_rename hnames, ih]

theorem find_rename : (environment.rename names).find (names name) = environment.find name := by
  rw [find, size_rename]
  exact findFrom_rename hnames environment name _ _

theorem valueAt?_rename (index : Nat) :
    (environment.rename names).valueAt? index (names name) = environment.valueAt? index name := by
  rw [valueAt?, valueAt?, getElem?_rename]
  cases environment.frames[index]? with
  | none => rfl
  | some frame =>
      simp only [Option.map_some, Option.bind_some, Table.get?_rename hnames, Option.map_id_fun, id]

theorem lookup_rename :
    (environment.rename names).lookup (names name) = environment.lookup name := by
  simp only [lookup, find_rename hnames, valueAt?_rename hnames]

theorem target?_rename :
    (environment.rename names).target? (names name) = environment.target? name := by
  rw [target?, target?, find_rename hnames]
  rfl

theorem setAt_rename (index : Nat) (value : Int64) :
    (environment.rename names).setAt index (names name) value =
      (environment.setAt index name value).rename names := by
  refine congrArg (Environment.mk · environment.current) (Array.ext_getElem? fun other => ?_)
  simp only [setAt, rename, Array.getElem?_modify, Array.getElem?_map]
  by_cases hindex : index = other
  · rw [if_pos hindex, if_pos hindex, Option.map_map, Option.map_map]
    refine congrArg (Option.map · _) (funext fun frame => ?_)
    have hinsert := Table.insert_rename hnames id frame.bindings name value
    exact congrArg (Frame.mk · frame.parent) hinsert
  · rw [if_neg hindex, if_neg hindex]

omit hnames in
theorem push_rename (bindings : Table Int64) :
    (environment.rename names).push (bindings.rename names id) =
      (environment.push bindings).rename names := by
  simp only [push, rename, Array.map_push, Array.size_map]

omit hnames in
theorem pop_rename (caller : Nat) :
    (environment.rename names).pop caller = (environment.pop caller).rename names := by
  rw [pop, pop, size_rename]
  refine congrArg (Environment.mk · caller) ?_
  split
  · exact Array.map_pop.symm
  · rfl

end Environment

/-! ## Calls -/

namespace Renaming

variable (r : Renaming)

/-- What a call is resolved to, with new names. -/
def ofResolved : Except RunFault (Function × Arguments) → Except RunFault (Function × Arguments)
  | .ok (function, arguments) => .ok (function.rename r, Expr.renameLabelled r arguments)
  | .error fault => .error (fault.rename r)

end Renaming

namespace Function

variable (r : Renaming) (function : Function)

theorem checkLabels_rename (seen : List String) (arguments : Arguments) :
    (function.rename r).checkLabels (seen.map r.ofVariable) (Expr.renameLabelled r arguments) =
      (function.checkLabels seen arguments).mapError (RunFault.rename r) := by
  induction arguments generalizing seen with
  | nil => rfl
  | cons argument rest ih =>
      have hparameter : r.ofVariable argument.1 ∈ (function.rename r).parameters ↔
          argument.1 ∈ function.parameters :=
        List.mem_map_of_injective r.ofVariable_injective
      have hseen : r.ofVariable argument.1 ∈ seen.map r.ofVariable ↔ argument.1 ∈ seen :=
        List.mem_map_of_injective r.ofVariable_injective
      rw [Expr.renameLabelled, checkLabels, checkLabels]
      simp only [hparameter, hseen]
      split
      · rfl
      · split
        · rfl
        · exact ih (argument.1 :: seen)

theorem orderLabels_rename (arguments : Arguments) (parameters : List String) :
    (function.rename r).orderLabels (Expr.renameLabelled r arguments)
        (parameters.map r.ofVariable) =
      ((function.orderLabels arguments parameters).map (Expr.renameLabelled r)).mapError
        (RunFault.rename r) := by
  induction parameters with
  | nil => rfl
  | cons parameter rest ih =>
      have hlookup : (Expr.renameLabelled r arguments).lookup (r.ofVariable parameter) =
          (arguments.lookup parameter).map (Expr.rename r) := by
        rw [Expr.renameLabelled_eq_map]
        exact lookup_map r.ofVariable_injective (Expr.rename r) parameter arguments
      rw [List.map_cons, orderLabels, orderLabels, hlookup, ih]
      cases arguments.lookup parameter with
      | none => rfl
      | some argument => cases function.orderLabels arguments rest <;> rfl

theorem matchLabels_rename (arguments : Arguments) :
    (function.rename r).matchLabels (Expr.renameLabelled r arguments) =
      ((function.matchLabels arguments).map (Expr.renameLabelled r)).mapError
        (RunFault.rename r) := by
  have hcheck := checkLabels_rename r function [] arguments
  have horder : (function.rename r).orderLabels (Expr.renameLabelled r arguments)
      (function.rename r).parameters = _ :=
    orderLabels_rename r function arguments function.parameters
  rw [List.map_nil] at hcheck
  rw [matchLabels, matchLabels, hcheck, horder]
  cases function.checkLabels [] arguments <;> rfl

end Function

namespace Session

variable (r : Renaming) (session : Session) (callee : String)

theorem function_rename : (session.rename r).function (r.ofFunction callee) =
    ((session.function callee).map (Function.rename r)).mapError (RunFault.rename r) := by
  have hlookup : (session.rename r).functions.get? (r.ofFunction callee) =
      (session.functions.get? callee).map (Function.rename r) :=
    Table.get?_rename r.ofFunction_injective _ session.functions callee
  rw [Session.function, Session.function, hlookup]
  cases session.functions.get? callee <;> rfl

theorem resolve_rename (arguments : List Expr) :
    (session.rename r).resolve (r.ofFunction callee) (Expr.renameAll r arguments) =
      r.ofResolved (session.resolve callee arguments) := by
  rw [resolve, resolve, function_rename]
  cases session.function callee with
  | error fault => rfl
  | ok function =>
      have harity : (function.rename r).arity = function.arity := List.length_map ..
      have hlength : (Expr.renameAll r arguments).length = arguments.length := by
        rw [Expr.renameAll_eq_map, List.length_map]
      have hzip : (function.rename r).parameters.zip (Expr.renameAll r arguments) =
          Expr.renameLabelled r (function.parameters.zip arguments) := by
        rw [Expr.renameAll_eq_map, Expr.renameLabelled_eq_map]
        exact List.zip_map
      simp only [Except.map, Except.mapError, Bind.bind, Except.bind, harity, hlength, hzip]
      split <;> rfl

theorem resolveLabelled_rename (arguments : Arguments) :
    (session.rename r).resolveLabelled (r.ofFunction callee) (Expr.renameLabelled r arguments) =
      r.ofResolved (session.resolveLabelled callee arguments) := by
  rw [resolveLabelled, resolveLabelled, function_rename]
  cases session.function callee with
  | error fault => rfl
  | ok function =>
      simp only [Except.map, Except.mapError, Bind.bind, Except.bind,
        Function.matchLabels_rename]
      cases function.matchLabels arguments <;> rfl

theorem enter_rename (bindings : Table Int64) :
    (session.rename r).enter (bindings.rename r.ofVariable id) =
      (session.enter bindings).rename r := by
  rw [enter, rename, Environment.push_rename]
  rfl

theorem leave_rename (caller : Nat) :
    (session.rename r).leave caller = (session.leave caller).rename r := by
  rw [leave, rename, Environment.pop_rename]
  rfl

theorem setAt_rename (index : Nat) (name : String) (value : Int64) :
    (session.rename r).setAt index (r.ofVariable name) value =
      (session.setAt index name value).rename r := by
  rw [setAt, rename, Environment.setAt_rename r.ofVariable_injective]
  rfl

theorem isFull_rename : (session.rename r).isFull = session.isFull := by
  rw [isFull, Environment.depth, rename, Environment.size_rename]
  rfl

end Session

/-! ## Steps -/

/-- The faults of operators name nothing. -/
theorem Operator.apply_mapError (r : Renaming) (op : Operator) (left right : Int64) :
    (op.apply left right).mapError (RunFault.rename r) = op.apply left right := by
  cases op with
  | divide =>
      rw [apply]
      split <;> rfl
  | _ => rfl

namespace Machine

variable (r : Renaming) (pending : List Pending) (session : Session)

theorem call_rename (function : Function) (bound : Table Int64) (arguments : Arguments) :
    call (function.rename r) (bound.rename r.ofVariable id) (Expr.renameLabelled r arguments)
        (pending.map (Pending.rename r)) (session.rename r) =
      (call function bound arguments pending session).rename r := by
  cases arguments with
  | cons argument rest => rfl
  | nil =>
      rw [Expr.renameLabelled, call, call, Session.isFull_rename, Session.enter_rename]
      split <;> rfl

theorem descend_rename (expr : Expr) :
    descend (expr.rename r) (pending.map (Pending.rename r)) (session.rename r) =
      (descend expr pending session).rename r := by
  cases expr with
  | symbol name =>
      have hlookup : (session.rename r).environment.lookup (r.ofVariable name) =
          session.environment.lookup name :=
        Environment.lookup_rename r.ofVariable_injective session.environment name
      rw [Expr.rename, descend, descend, hlookup]
      cases session.environment.lookup name <;> rfl
  | block body =>
      cases body with
      | nil => rfl
      | cons first rest =>
          rw [Expr.rename, Expr.renameAll, Expr.renameAll_eq_map]
          rfl
  | call callee arguments =>
      rw [Expr.rename, descend, descend, Session.resolve_rename]
      cases session.resolve callee arguments with
      | error fault => rfl
      | ok resolved => exact call_rename r pending session resolved.1 .empty resolved.2
  | labelledCall callee arguments =>
      rw [Expr.rename, descend, descend, Session.resolveLabelled_rename]
      cases session.resolveLabelled callee arguments with
      | error fault => rfl
      | ok resolved => exact call_rename r pending session resolved.1 .empty resolved.2
  | number | assign | binary | ifThen | ifElse | loop | println => rfl

theorem resume_rename (value : Int64) (task : Pending) :
    resume value (task.rename r) (pending.map (Pending.rename r)) (session.rename r) =
      (resume value task pending session).rename r := by
  cases task with
  | assign name =>
      have htarget : (session.rename r).environment.target? (r.ofVariable name) =
          session.environment.target? name :=
        Environment.target?_rename r.ofVariable_injective session.environment name
      rw [Pending.rename, resume, resume, htarget]
      cases session.environment.target? name with
      | none => rfl
      | some index =>
          dsimp only
          rw [Session.setAt_rename]
          rfl
  | apply op left =>
      rw [Pending.rename, resume, resume, rename, Focus.rename, Operator.apply_mapError]
  | sequence rest => cases rest <;> rfl
  | branch thenBody elseBody =>
      simp only [Pending.rename, resume]
      split
      · rfl
      · cases elseBody <;> rfl
  | test condition body =>
      simp only [Pending.rename, resume]
      split <;> rfl
  | argument function bound parameter rest =>
      have hinsert := Table.insert_rename r.ofVariable_injective id bound parameter value
      rw [Pending.rename, resume, resume, ← call_rename, ← hinsert]
      rfl
  | leave caller =>
      rw [Pending.rename, resume, resume, Session.leave_rename]
      rfl
  | rightOperand | again | print => rfl

/-- One step. -/
theorem step_rename (machine : Machine) : (machine.rename r).step = machine.step.rename r := by
  obtain ⟨focus, pending, session⟩ := machine
  cases focus with
  | evaluate expr => exact descend_rename r pending session expr
  | stuck => rfl
  | outcome result =>
      cases pending with
      | nil => cases result <;> rfl
      | cons task pending =>
          cases result with
          | ok value => exact resume_rename r pending session value task
          | error fault =>
              cases task with
              | leave caller =>
                  exact congrArg (Machine.mk _ _) (Session.leave_rename r session caller)
              | _ => rfl

/-- A whole run. -/
theorem run_rename (fuel : Nat) (machine : Machine) :
    (machine.rename r).run fuel =
      (machine.run fuel).map fun ended =>
        (ended.1.mapError (RunFault.rename r), ended.2.rename r) := by
  induction fuel generalizing machine with
  | zero => rfl
  | succ fuel ih =>
      have hstep := ih machine.step
      rw [← step_rename] at hstep
      obtain ⟨focus, pending, session⟩ := machine
      cases focus with
      | evaluate expr => exact hstep
      | stuck => rfl
      | outcome result =>
          cases pending with
          | nil => rfl
          | cons task pending => exact hstep

end Machine

/-! ## Computations -/

namespace Session

variable {α β : Type} (r : Renaming)

/-- The outcome of a computation and the session that it leaves, with new names. -/
def renameEnded (ended : Except RunFault α × Session) : Except RunFault α × Session :=
  (ended.1.mapError (RunFault.rename r), ended.2.rename r)

/-- What the one computation does in a session, the other does in the renamed one. -/
def Equivariant (run renamed : Run α) : Prop :=
  ∀ session : Session, renamed (session.rename r) = (run session).map (renameEnded r)

namespace Equivariant

variable {r : Renaming}

theorem bind {run renamed : Run α} {next renamedNext : α → Run β} (hrun : Equivariant r run renamed)
    (hnext : ∀ value, Equivariant r (next value) (renamedNext value)) :
    Equivariant r (run >>= next) (renamed >>= renamedNext) := by
  intro session
  show (renamed (session.rename r)).bind _ = ((run session).bind _).map _
  rw [hrun session]
  cases run session with
  | none => rfl
  | some ended =>
      obtain ⟨result, after⟩ := ended
      cases result with
      | error fault => rfl
      | ok value => exact hnext value after

theorem pure (value : α) : Equivariant r (Pure.pure value) (Pure.pure value) :=
  fun _ => rfl

theorem modify {change renamedChange : Session → Session}
    (h : ∀ session : Session, renamedChange (session.rename r) = (change session).rename r) :
    Equivariant r (modify change) (modify renamedChange) := by
  intro session
  show some (Except.ok (), renamedChange (session.rename r)) = _
  rw [h]
  rfl

theorem evaluate (fuel : Nat) (expr : Expr) :
    Equivariant r (Session.evaluate fuel expr) (Session.evaluate fuel (expr.rename r)) :=
  fun session => Machine.run_rename r fuel ⟨.evaluate expr, [], session⟩

theorem define (fuel : Nat) (definition : Definition) :
    Equivariant r (Session.define fuel definition)
      (Session.define fuel (definition.rename r)) := by
  cases definition with
  | function f =>
      refine modify fun session => ?_
      have hinsert := Table.insert_rename r.ofFunction_injective (Function.rename r)
        session.functions f.name f
      exact congrArg (fun functions => { session.rename r with functions }) hinsert
  | global name value =>
      refine (evaluate fuel value).bind fun number => modify fun session => ?_
      exact Session.setAt_rename r session 0 name number

theorem register (fuel : Nat) (program : Program) :
    Equivariant r (Session.register fuel program)
      (Session.register fuel (program.rename r)) := by
  induction program with
  | nil => exact pure ()
  | cons definition rest ih => exact (define fuel definition).bind fun _ => ih

theorem entryPoint_rename (session : Session) : (session.rename r).entryPoint =
    (session.entryPoint.map (Function.rename r)).mapError (RunFault.rename r) := by
  have hlookup : (session.rename r).functions.get? "main" =
      (session.functions.get? "main").map (Function.rename r) := by
    have hget := Table.get?_rename r.ofFunction_injective (Function.rename r) session.functions
      "main"
    rwa [r.ofFunction_main] at hget
  rw [entryPoint, entryPoint, hlookup]
  cases session.functions.get? "main" with
  | none => rfl
  | some main =>
      have harity : (main.rename r).arity = main.arity := List.length_map ..
      simp only [Option.map_some, harity]
      split <;> rfl

theorem runProgram (fuel : Nat) (program : Program) :
    Equivariant r (Session.runProgram fuel program)
      (Session.runProgram fuel (program.rename r)) := by
  refine (register fuel program).bind fun _ session => ?_
  show (liftM (session.rename r).entryPoint >>= _ : Run Int64) (session.rename r) =
    ((liftM session.entryPoint >>= _ : Run Int64) session).map _
  rw [entryPoint_rename]
  cases session.entryPoint with
  | error fault => rfl
  | ok main => exact evaluate fuel main.body session

end Equivariant

theorem initial_rename (callLimit : Nat) (output : Output) :
    (initial callLimit output).rename r = initial callLimit output := by
  simp [initial, rename, Environment.initial, Environment.rename, Table.rename, Table.empty]

end Session

/-- A renamed program, run in a new session, has the same value or the same fault with new names,
prints the same, and leaves the same variables and functions with new names; it does not come to an
end if the program itself does not.  A session with new names is one where what a name was bound to
is bound to the new name, and nothing else is bound. -/
theorem runProgram_rename (r : Renaming) :
    (∀ (program : Program) (callLimit : Nat) (output : Output) (fuel : Nat),
      Session.runProgram fuel (program.rename r) (.initial callLimit output) =
        (Session.runProgram fuel program (.initial callLimit output)).map fun ended =>
          (ended.1.mapError (RunFault.rename r), ended.2.rename r)) ∧
    ∀ session : Session, (session.rename r).output = session.output ∧
      (∀ name, (session.rename r).environment.global? (r.ofVariable name) =
        session.environment.global? name) ∧
      (∀ name, (session.rename r).functions.get? (r.ofFunction name) =
        (session.functions.get? name).map (Function.rename r)) ∧
      (∀ name, (∀ old, name ≠ r.ofVariable old) →
        (session.rename r).environment.global? name = none) ∧
      (∀ name, (∀ old, name ≠ r.ofFunction old) →
        (session.rename r).functions.get? name = none) := by
  refine ⟨fun program callLimit output fuel => ?_, fun session => ⟨rfl, fun name => ?_,
    fun name => ?_, fun name hnew => ?_, fun name hnew => ?_⟩⟩
  · have hrun := Session.Equivariant.runProgram (r := r) fuel program (.initial callLimit output)
    rwa [Session.initial_rename] at hrun
  · exact Environment.valueAt?_rename r.ofVariable_injective session.environment name 0
  · exact Table.get?_rename r.ofFunction_injective (Function.rename r) session.functions name
  · rw [Environment.global?, Environment.valueAt?, Session.rename, Environment.getElem?_rename]
    cases session.environment.frames[0]? with
    | none => rfl
    | some frame => exact Table.get?_rename_of_ne id frame.bindings hnew
  · exact Table.get?_rename_of_ne (Function.rename r) session.functions hnew

/-- A program that prints, sets a global variable and then fails, and the same one where that
variable and the function have one name. -/
theorem runProgram_rename_of_shared_name : ∃ (r : Renaming) (program : Program)
      (after renamed : Session), r.ofVariable "x" = r.ofFunction "f" ∧
    Session.runProgram 40 program (.initial 1 (.buffer "")) =
      some (.error (.unbound "z"), after) ∧ after.environment.global? "x" = some 3 ∧
    Session.runProgram 40 (program.rename r) (.initial 1 (.buffer "")) =
      some (.error (.unbound "fz"), renamed) ∧ renamed.output = .buffer "2\n" ∧
    renamed.environment.global? "fx" = some 3 ∧ renamed.environment.global? "x" = none := by
  obtain ⟨r, hshared, hz, hx, hnew⟩ : ∃ r : Renaming, r.ofVariable "x" = r.ofFunction "f" ∧
      r.ofVariable "z" = "fz" ∧ r.ofVariable "x" = "fx" ∧ ∀ old, "x" ≠ r.ofVariable old := by
    refine ⟨⟨("f" ++ ·), Equiv.swap "f" "fx", fun _ _ => (String.append_right_inj "f").mp,
      (Equiv.swap "f" "fx").injective, by decide⟩, by decide, by decide, by decide, ?_⟩
    intro old h
    have hlist := congrArg String.toList h
    rw [String.toList_append] at hlist
    exact absurd (List.cons.inj hlist).1 (by decide)
  obtain ⟨program, after, hrun, houtput, hglobal⟩ : ∃ program after,
      Session.runProgram 40 program (.initial 1 (.buffer "")) =
        some (.error (.unbound "z"), after) ∧ after.output = .buffer "2\n" ∧
      after.environment.global? "x" = some 3 :=
    ⟨[.global "x" (.number 1),
      .function ⟨"f", ["y"], .block
        [.assign "x" (.binary .add (.symbol "x") (.symbol "y")), .symbol "y"]⟩,
      .function ⟨"main", [], .block
        [.println (.labelledCall "f" [("y", .number 2)]), .symbol "z"]⟩], _, rfl, rfl, rfl⟩
  obtain ⟨hrenamed, hsession⟩ := runProgram_rename r
  obtain ⟨-, hvariables, -, hothers, -⟩ := hsession after
  refine ⟨r, program, after, after.rename r, hshared, hrun, hglobal, ?_, houtput, ?_,
    hothers "x" hnew⟩
  · rw [hrenamed, hrun, Option.map_some, ← hz]
    rfl
  · rw [← hx, hvariables, hglobal]

end IntScript
