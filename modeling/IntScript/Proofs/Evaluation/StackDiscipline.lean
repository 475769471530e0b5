import IntScript.Proofs.Evaluation.Shape
import IntScript.Session.Program

/-!
# Stack discipline

An evaluation that comes to its end, with a value or with a fault, leaves the frames as it found
them: as many of them, the same one current, each with the same parent.  It changes no function and
not the call limit, and to the output it only adds.

What is pending tells which frames the calls in progress have pushed.  `Nested` says that leaving
these calls one after the other leads back to the frames the evaluation started with; it looks at
nothing but the shape of the environment.  `Keeps` adds the rest of the session.

* `Machine.Keeps.step` : one step keeps this up, and `Machine.Keeps.run` : so does a whole run.
* `Machine.Keeps.step_ne_stuck` : no search along the parents goes astray on the way.
* `Session.Reachable.extends_initial` : between the operations on a session no call is in progress,
  whatever they were and however they ended.
* `evaluation_restores_frames` : the main result.
-/

namespace IntScript

/-! ## Output -/

/-- The destination with a text written to it. -/
def Output.write (text : String) : Output → Output
  | console written => console (written ++ text)
  | buffer captured => buffer (captured ++ text)
  | silent => silent

theorem Output.write_empty (output : Output) : output.write "" = output := by
  cases output <;> simp [write]

theorem Output.write_write (first second : String) (output : Output) :
    (output.write first).write second = output.write (first ++ second) := by
  cases output <;> simp [write, String.append_assoc]

theorem Output.print_eq_write (value : Int64) (output : Output) :
    output.print value = output.write (Text.decimal value ++ "\n") := by
  cases output <;> simp [write, print, String.append_assoc]

/-! ## Calls in progress -/

namespace Machine

/-- Leaving the calls that are pending, the innermost first, leads back to the shape of `base`. -/
def Nested (base : Environment) : List Pending → Environment → Prop
  | [], environment => environment.SameShape base
  | .leave caller :: pending, environment =>
    environment.WellFormed ∧ Nested base pending (environment.pop caller)
  | _ :: pending, environment => Nested base pending environment

namespace Nested

variable {base environment other : Environment} {pending : List Pending}

/-- Bindings do not matter. -/
theorem of_sameShape (h : Nested base pending environment) (hsame : environment.SameShape other) :
    Nested base pending other := by
  induction pending generalizing environment other with
  | nil => exact hsame.symm.trans h
  | cons task pending ih =>
      cases task with
      -- Leaving a call looks at the number of frames only, which is part of the shape.
      | leave caller => exact ⟨hsame.wellFormed h.1, ih h.2 (hsame.pop caller)⟩
      | _ => exact ih h hsame

theorem wellFormed (hbase : base.WellFormed) (h : Nested base pending environment) :
    environment.WellFormed := by
  induction pending with
  | nil => exact h.symm.wellFormed hbase
  | cons task pending ih =>
      cases task with
      | leave caller => exact h.1
      | _ => exact ih h

/-- A call that is entered is pending from then on. -/
theorem push (hbase : base.WellFormed) (h : Nested base pending environment)
    (bindings : Table Int64) :
    Nested base (.leave environment.current :: pending) (environment.push bindings) := by
  have hwell := h.wellFormed hbase
  refine ⟨hwell.push bindings, ?_⟩
  rwa [Environment.pop_push hwell.size_pos]

end Nested

/-- What a machine that was started in a session leads back to, and what it never changes. -/
structure Keeps (start : Session) (pending : List Pending) (session : Session) : Prop where
  nested : Nested start.environment pending session.environment
  functions_eq : session.functions = start.functions
  callLimit_eq : session.callLimit = start.callLimit
  output_eq : ∃ text, session.output = start.output.write text

namespace Keeps

variable {start session : Session} {pending : List Pending}

theorem refl (session : Session) : Keeps session [] session :=
  ⟨.refl _, rfl, rfl, "", session.output.write_empty.symm⟩

/-- A task that is no call changes nothing about the frames. -/
theorem cons {task : Pending} (htask : ∀ caller, task ≠ .leave caller) :
    Keeps start (task :: pending) session ↔ Keeps start pending session := by
  have hnested : Nested start.environment (task :: pending) session.environment ↔
      Nested start.environment pending session.environment := by
    cases task with
    | leave caller => exact absurd rfl (htask caller)
    | _ => exact Iff.rfl
  constructor
  · exact fun h => ⟨hnested.mp h.nested, h.functions_eq, h.callLimit_eq, h.output_eq⟩
  · exact fun h => ⟨hnested.mpr h.nested, h.functions_eq, h.callLimit_eq, h.output_eq⟩

theorem enter (hstart : start.environment.WellFormed) (h : Keeps start pending session)
    (bindings : Table Int64) :
    Keeps start (.leave session.environment.current :: pending) (session.enter bindings) :=
  ⟨h.nested.push hstart bindings, h.functions_eq, h.callLimit_eq, h.output_eq⟩

theorem leave {caller : Nat} (h : Keeps start (.leave caller :: pending) session) :
    Keeps start pending (session.leave caller) :=
  ⟨h.nested.2, h.functions_eq, h.callLimit_eq, h.output_eq⟩

theorem setAt (h : Keeps start pending session) (index : Nat) (name : String) (value : Int64) :
    Keeps start pending (session.setAt index name value) :=
  ⟨h.nested.of_sameShape (Environment.setAt_sameShape _ index name value).symm, h.functions_eq,
    h.callLimit_eq, h.output_eq⟩

theorem print (h : Keeps start pending session) (value : Int64) :
    Keeps start pending (session.print value) := by
  obtain ⟨text, htext⟩ := h.output_eq
  refine ⟨h.nested, h.functions_eq, h.callLimit_eq, text ++ (Text.decimal value ++ "\n"), ?_⟩
  rw [Session.print, Output.print_eq_write, htext, Output.write_write]

/-! ## Steps -/

theorem call (hstart : start.environment.WellFormed) (h : Keeps start pending session)
    (function : Function) (bound : Table Int64) (arguments : Arguments) :
    Keeps start (Machine.call function bound arguments pending session).pending
      (Machine.call function bound arguments pending session).session := by
  unfold Machine.call
  split
  · exact (cons (by nofun)).mpr h
  · split
    · exact h
    · exact h.enter hstart bound

theorem descend (hstart : start.environment.WellFormed) (h : Keeps start pending session)
    (expr : Expr) :
    Keeps start (Machine.descend expr pending session).pending
      (Machine.descend expr pending session).session := by
  cases expr with
  | number value => exact h
  | symbol name =>
      simp only [Machine.descend]
      cases session.environment.lookup name <;> exact h
  | block body =>
      cases body with
      | nil => exact h
      | cons first rest => exact (cons (by nofun)).mpr h
  | call callee arguments =>
      -- A call that cannot be resolved fails before any frame is pushed.
      simp only [Machine.descend]
      cases session.resolve callee arguments with
      | error fault => exact h
      | ok resolved => exact h.call hstart resolved.1 .empty resolved.2
  | labelledCall callee arguments =>
      simp only [Machine.descend]
      cases session.resolveLabelled callee arguments with
      | error fault => exact h
      | ok resolved => exact h.call hstart resolved.1 .empty resolved.2
  | assign | binary | ifThen | ifElse | loop | println => exact (cons (by nofun)).mpr h

theorem resume (hstart : start.environment.WellFormed) {task : Pending}
    (h : Keeps start (task :: pending) session) (value : Int64) :
    Keeps start (Machine.resume value task pending session).pending
      (Machine.resume value task pending session).session := by
  cases task with
  | assign name =>
      have hbelow := (cons (by nofun)).mp h
      simp only [Machine.resume]
      cases session.environment.target? name with
      | some index => exact hbelow.setAt index name value
      | none => exact hbelow
  | sequence rest =>
      have hbelow := (cons (by nofun)).mp h
      cases rest with
      | nil => exact hbelow
      | cons first rest => exact (cons (by nofun)).mpr hbelow
  | branch thenBody elseBody =>
      have hbelow := (cons (by nofun)).mp h
      simp only [Machine.resume]
      split
      · exact hbelow
      · cases elseBody <;> exact hbelow
  | test condition body =>
      have hbelow := (cons (by nofun)).mp h
      simp only [Machine.resume]
      split
      · exact (cons (by nofun)).mpr hbelow
      · exact hbelow
  | argument function bound parameter rest =>
      exact ((cons (by nofun)).mp h).call hstart function (bound.insert parameter value) rest
  | leave caller => exact h.leave
  | print => exact ((cons (by nofun)).mp h).print value
  | apply => exact (cons (by nofun)).mp h
  | rightOperand | again => exact (cons (by nofun)).mpr ((cons (by nofun)).mp h)

/-- A fault leaves the calls it passes by. -/
theorem unwind {task : Pending} (h : Keeps start (task :: pending) session) :
    Keeps start pending (Machine.unwind task session) := by
  cases task with
  | leave caller => exact h.leave
  | _ => exact (cons (by nofun)).mp h

/-- One step. -/
theorem step (hstart : start.environment.WellFormed) {machine : Machine}
    (h : Keeps start machine.pending machine.session) :
    Keeps start machine.step.pending machine.step.session := by
  obtain ⟨focus, pending, session⟩ := machine
  cases focus with
  | evaluate expr => exact h.descend hstart expr
  | stuck => exact h
  | outcome result =>
      -- With nothing pending the evaluation is over, and the machine stays as it is.
      cases pending with
      | nil => cases result <;> exact h
      | cons task pending =>
          cases result with
          | ok value => exact h.resume hstart value
          | error fault => exact h.unwind

/-- A whole run, to its end. -/
theorem run (hstart : start.environment.WellFormed) :
    ∀ {fuel : Nat} {machine : Machine} {result : Except RunFault Int64} {session : Session},
      Keeps start machine.pending machine.session →
      machine.run fuel = some (result, session) → Keeps start [] session := by
  intro fuel
  induction fuel with
  | zero => exact fun _ h => absurd h nofun
  | succ fuel ih =>
      intro machine result session h hrun
      -- An outcome with nothing pending ends the run; otherwise there is one step less to go.
      unfold Machine.run at hrun
      split at hrun
      next =>
        cases hrun
        exact h
      next => cases hrun
      next => exact ih (h.step hstart) hrun

end Keeps

/-! ## Searches on the way -/

theorem call_ne_stuck (function : Function) (bound : Table Int64) (arguments : Arguments)
    (pending : List Pending) (session : Session) :
    (call function bound arguments pending session).focus ≠ .stuck := by
  unfold call
  split
  · exact nofun
  · split <;> exact nofun

theorem descend_ne_stuck {session : Session} (hwell : session.environment.WellFormed)
    (expr : Expr) (pending : List Pending) : (descend expr pending session).focus ≠ .stuck := by
  cases expr with
  | symbol name =>
      have hlookup := hwell.lookup_ne_astray name
      simp only [descend]
      cases hsearch : session.environment.lookup name with
      | astray => exact absurd hsearch hlookup
      | found | unbound => exact nofun
  | block body => cases body <;> exact nofun
  | call callee arguments =>
      simp only [descend]
      cases session.resolve callee arguments with
      | error fault => exact nofun
      | ok resolved => exact call_ne_stuck resolved.1 .empty resolved.2 pending session
  | labelledCall callee arguments =>
      simp only [descend]
      cases session.resolveLabelled callee arguments with
      | error fault => exact nofun
      | ok resolved => exact call_ne_stuck resolved.1 .empty resolved.2 pending session
  | _ => exact nofun

theorem resume_ne_stuck {session : Session} (hwell : session.environment.WellFormed)
    (value : Int64) (task : Pending) (pending : List Pending) :
    (resume value task pending session).focus ≠ .stuck := by
  cases task with
  | assign name =>
      have htarget := hwell.target?_ne_none name
      simp only [resume]
      cases hsearch : session.environment.target? name with
      | none => exact absurd hsearch htarget
      | some index => exact nofun
  | sequence rest => cases rest <;> exact nofun
  | branch thenBody elseBody =>
      simp only [resume]
      split
      · exact nofun
      · cases elseBody <;> exact nofun
  | test condition body =>
      simp only [resume]
      split <;> exact nofun
  | argument function bound parameter rest =>
      exact call_ne_stuck function (bound.insert parameter value) rest pending session
  | _ => exact nofun

/-- No search along the parents goes astray. -/
theorem Keeps.step_ne_stuck {start : Session} (hstart : start.environment.WellFormed)
    {machine : Machine} (h : Keeps start machine.pending machine.session)
    (hfocus : machine.focus ≠ .stuck) : machine.step.focus ≠ .stuck := by
  have hwell := h.nested.wellFormed hstart
  obtain ⟨focus, pending, session⟩ := machine
  cases focus with
  | evaluate expr => exact descend_ne_stuck hwell expr pending
  | stuck => exact absurd rfl hfocus
  | outcome result =>
      cases pending with
      | nil => cases result <;> exact nofun
      | cons task pending =>
          cases result with
          | ok value => exact resume_ne_stuck hwell value task pending
          | error fault => exact nofun

/-- The machine after so many steps. -/
def afterSteps : Nat → Machine → Machine
  | 0, machine => machine
  | steps + 1, machine => afterSteps steps machine.step

/-- An evaluation in a well-formed session that has no outcome goes on forever. -/
theorem afterSteps_ne_stuck {session : Session} (hwell : session.environment.WellFormed)
    (expr : Expr) (steps : Nat) :
    (afterSteps steps ⟨.evaluate expr, [], session⟩).focus ≠ .stuck := by
  suffices ∀ steps (machine : Machine), Keeps session machine.pending machine.session →
      machine.focus ≠ .stuck → (afterSteps steps machine).focus ≠ .stuck from
    this steps _ (.refl session) nofun
  intro steps
  induction steps with
  | zero => exact fun _ _ hfocus => hfocus
  | succ steps ih =>
      intro machine hkeeps hfocus
      exact ih machine.step (hkeeps.step hwell) (hkeeps.step_ne_stuck hwell hfocus)

end Machine

namespace Session

/-! ## Operations -/

/-- What a session becomes between two operations: no call is in progress in the one or the other,
the limit on calls is the same, and output was added. -/
structure Extends (before after : Session) : Prop where
  sameShape : after.environment.SameShape before.environment
  callLimit_eq : after.callLimit = before.callLimit
  output_eq : ∃ text, after.output = before.output.write text

namespace Extends

variable {first second third : Session}

theorem refl (session : Session) : Extends session session :=
  ⟨.refl _, rfl, "", session.output.write_empty.symm⟩

theorem trans (h : Extends first second) (h' : Extends second third) : Extends first third := by
  obtain ⟨text, htext⟩ := h.output_eq
  obtain ⟨text', htext'⟩ := h'.output_eq
  refine ⟨h'.sameShape.trans h.sameShape, h'.callLimit_eq.trans h.callLimit_eq, text ++ text', ?_⟩
  rw [htext', htext, Output.write_write]

theorem wellFormed (h : Extends first second) (hwell : first.environment.WellFormed) :
    second.environment.WellFormed :=
  h.sameShape.symm.wellFormed hwell

end Extends

variable {fuel : Nat} {session after : Session}

theorem keeps_of_evaluate (hwell : session.environment.WellFormed) {expr : Expr}
    {result : Except RunFault Int64} (h : evaluate fuel expr session = some (result, after)) :
    Machine.Keeps session [] after :=
  (Machine.Keeps.refl session).run hwell h

/-- However the computation ends, the session it leaves is one between two operations again. -/
def OnlyExtends {α : Type} (run : Run α) : Prop :=
  ∀ ⦃session : Session⦄ ⦃result : Except RunFault α⦄ ⦃after : Session⦄,
    session.environment.WellFormed → run session = some (result, after) → Extends session after

namespace OnlyExtends

variable {α β : Type}

theorem bind {run : Run α} {next : α → Run β} (hrun : OnlyExtends run)
    (hnext : ∀ value, OnlyExtends (next value)) : OnlyExtends (run >>= next) := by
  intro session result after hwell h
  simp only [Bind.bind, ExceptT.bind, ExceptT.mk, StateT.bind, Option.bind] at h
  split at h
  next => cases h
  next outcome houtcome =>
    obtain ⟨outcome, mid⟩ := outcome
    -- A fault of the first computation is the outcome of both.
    have hmid := hrun hwell houtcome
    cases outcome with
    | ok value => exact hmid.trans (hnext value (hmid.wellFormed hwell) h)
    | error fault =>
        cases h
        exact hmid

theorem pure (value : α) : OnlyExtends (Pure.pure value : Run α) := by
  intro session result after _ h
  cases h
  exact .refl session

theorem get_bind {next : Session → Run β} (hnext : ∀ session, OnlyExtends (next session)) :
    OnlyExtends (get >>= next) :=
  fun session _ _ hwell h => hnext session hwell h

theorem evaluate (fuel : Nat) (expr : Expr) : OnlyExtends (Session.evaluate fuel expr) := by
  intro session result after hwell h
  have hkeeps := keeps_of_evaluate hwell h
  exact ⟨hkeeps.nested, hkeeps.callLimit_eq, hkeeps.output_eq⟩

theorem define (fuel : Nat) (definition : Definition) :
    OnlyExtends (Session.define fuel definition) := by
  cases definition with
  | function f =>
      intro session result after _ h
      cases h
      exact ⟨.refl _, rfl, "", session.output.write_empty.symm⟩
  | global name value =>
      refine (evaluate fuel value).bind fun number session result after _ h => ?_
      cases h
      exact ⟨Environment.setAt_sameShape _ 0 name number, rfl, "", session.output.write_empty.symm⟩

theorem register (fuel : Nat) (program : Program) :
    OnlyExtends (Session.register fuel program) := by
  induction program with
  | nil => exact pure ()
  | cons definition rest ih => exact (define fuel definition).bind fun _ => ih

theorem entryPoint (session : Session) :
    OnlyExtends (liftM (Session.entryPoint session) : Run Function) := by
  intro before result after _ h
  cases hentry : Session.entryPoint session <;> rw [hentry] at h <;> cases h <;> exact .refl before

theorem runProgram (fuel : Nat) (program : Program) :
    OnlyExtends (Session.runProgram fuel program) := by
  refine (register fuel program).bind fun _ => get_bind fun session => ?_
  exact (entryPoint session).bind fun main => evaluate fuel main.body

end OnlyExtends

/-- What can be asked of a session. -/
inductive Operation where
  /-- Take in the definitions of a program. -/
  | register (program : Program)
  /-- Take in the definitions of a program and evaluate the body of its `main`. -/
  | runProgram (program : Program)
  /-- Evaluate an expression in the current frame. -/
  | evaluate (expr : Expr)

/-- What a session becomes by an operation, whether it succeeds or fails, if it comes to its end
within `fuel` steps. -/
def Operation.perform (fuel : Nat) (operation : Operation) (session : Session) : Option Session :=
  match operation with
  | register program => ((Session.register fuel program).run.run session).map Prod.snd
  | runProgram program => ((Session.runProgram fuel program).run.run session).map Prod.snd
  | evaluate expr => ((Session.evaluate fuel expr).run.run session).map Prod.snd

theorem Operation.extends_of_perform {operation : Operation}
    (hwell : session.environment.WellFormed)
    (h : operation.perform fuel session = some after) : Extends session after := by
  cases operation with
  | register program =>
      obtain ⟨⟨result, _⟩, hrun, rfl⟩ := Option.map_eq_some_iff.mp h
      exact OnlyExtends.register fuel program hwell hrun
  | runProgram program =>
      obtain ⟨⟨result, _⟩, hrun, rfl⟩ := Option.map_eq_some_iff.mp h
      exact OnlyExtends.runProgram fuel program hwell hrun
  | evaluate expr =>
      obtain ⟨⟨result, _⟩, hrun, rfl⟩ := Option.map_eq_some_iff.mp h
      exact OnlyExtends.evaluate fuel expr hwell hrun

/-- What a new session can become by operations that come to their end, in any order. -/
inductive Reachable (callLimit : Nat) (output : Output) : Session → Prop where
  | initial : Reachable callLimit output (Session.initial callLimit output)
  | perform {session after : Session} (operation : Operation) (fuel : Nat)
      (hsession : Reachable callLimit output session)
      (hperform : operation.perform fuel session = some after) :
      Reachable callLimit output after

theorem Reachable.extends_initial {callLimit : Nat} {output : Output} {session : Session}
    (h : Reachable callLimit output session) :
    Extends (Session.initial callLimit output) session := by
  induction h with
  | initial => exact .refl _
  | perform operation fuel _ hperform ih =>
      have hwell := ih.wellFormed Environment.initial_wellFormed
      exact ih.trans (operation.extends_of_perform hwell hperform)

end Session

/-- An evaluation in a well-formed session that comes to its end, with a value or with a fault,
restores all frames, changes neither functions nor the call limit, and only adds to the output.  So
no call is in progress, and the global frame is the current one, after any sequence of operations
on a new session. -/
theorem evaluation_restores_frames :
    (∀ (session : Session) (fuel : Nat) (expr : Expr) (result : Except RunFault Int64)
        (after : Session),
      session.environment.WellFormed →
      Session.evaluate fuel expr session = some (result, after) →
      after.environment.frames.size = session.environment.frames.size ∧
        after.environment.current = session.environment.current ∧
        (∀ index : Nat, after.environment.frames[index]?.map Frame.parent =
          session.environment.frames[index]?.map Frame.parent) ∧
        after.functions = session.functions ∧ after.callLimit = session.callLimit ∧
        ∃ text, after.output = session.output.write text) ∧
    (∀ (callLimit : Nat) (output : Output) (session : Session),
      Session.Reachable callLimit output session →
      session.environment.depth = 0 ∧ session.environment.current = 0) := by
  constructor
  · intro session fuel expr result after hwell h
    have hkeeps := Session.keeps_of_evaluate hwell h
    have hshape : after.environment.SameShape session.environment := hkeeps.nested
    exact ⟨hshape.size_eq, hshape.current_eq, hshape.parent_eq, hkeeps.functions_eq,
      hkeeps.callLimit_eq, hkeeps.output_eq⟩
  · intro callLimit output session h
    have hshape := h.extends_initial.sameShape
    refine ⟨?_, hshape.current_eq⟩
    rw [Environment.depth, hshape.size_eq]
    rfl

/-- A call that prints and then divides by zero, in a session with nothing but its function. -/
theorem evaluation_restores_frames_of_failing_call : ∃ session after : Session,
    session.environment.WellFormed ∧
      Session.evaluate 20 (.call "f" [.number 7]) session = some (.error .divisionByZero, after) ∧
      after.output = .buffer "7\n" ∧
      after.environment.frames.size = session.environment.frames.size ∧
      after.functions = session.functions ∧
      after.environment.depth = 0 ∧ after.environment.current = 0 := by
  obtain ⟨session, hregister, hwell, after, hevaluate, houtput⟩ :
      ∃ session, (Session.Operation.register [.function ⟨"f", ["x"], .block
          [.println (.symbol "x"), .binary .divide (.symbol "x") (.number 0)]⟩]).perform 1
          (.initial 1 (.buffer "")) = some session ∧
        session.environment.WellFormed ∧
        ∃ after, Session.evaluate 20 (.call "f" [.number 7]) session =
          some (.error .divisionByZero, after) ∧ after.output = .buffer "7\n" :=
    ⟨_, rfl, Environment.initial_wellFormed, _, rfl, rfl⟩
  obtain ⟨hsize, -, -, hfunctions, -⟩ :=
    evaluation_restores_frames.1 session 20 _ _ after hwell hevaluate
  have hreachable : Session.Reachable 1 (.buffer "") after := by
    refine .perform (.evaluate (.call "f" [.number 7])) 20 (.perform _ 1 .initial hregister) ?_
    exact Option.map_eq_some_iff.mpr ⟨_, hevaluate, rfl⟩
  exact ⟨session, after, hwell, hevaluate, houtput, hsize, hfunctions,
    evaluation_restores_frames.2 1 (.buffer "") after hreachable⟩

end IntScript
