import IntScript.Proofs.Evaluation.Resolution
import IntScript.Proofs.Evaluation.StackDiscipline

/-!
# Runs and steps

A run is a sequence of steps up to an outcome with nothing pending, where the machine stays.  What
two machines do step by step can therefore be said of their runs.

* `Machine.run_eq_some_iff` : a run within `fuel` steps ends exactly if the machine comes to its end
  in fewer steps.
* `Machine.run_mono` : more fuel does not change the outcome.
* `Machine.continues_step` : what a step can do, to the pending tasks and to the session.
* `Machine.pending_length_le_of_afterSteps` : every pending task takes a step at least.
* `Machine.afterSteps_error` : a fault passes all pending tasks by, one in each step.
* `Session.bind_eq_some_iff` : a sequence of computations fails with the first of them or goes on
  from where that ends.
-/

namespace IntScript.Machine

variable {machine : Machine} {result : Except RunFault Int64} {session : Session} {fuel : Nat}

theorem afterSteps_outcome (steps : Nat) (result : Except RunFault Int64) (session : Session) :
    afterSteps steps ⟨.outcome result, [], session⟩ = ⟨.outcome result, [], session⟩ := by
  induction steps with
  | zero => rfl
  | succ steps ih => cases result <;> exact ih

theorem afterSteps_stuck (steps : Nat) (pending : List Pending) (session : Session) :
    afterSteps steps ⟨.stuck, pending, session⟩ = ⟨.stuck, pending, session⟩ := by
  induction steps with
  | zero => rfl
  | succ steps ih => exact ih

/-- The end of a run is an outcome with nothing pending, reached in fewer steps than there is
fuel. -/
theorem run_eq_some_iff : machine.run fuel = some (result, session) ↔
    ∃ steps < fuel, afterSteps steps machine = ⟨.outcome result, [], session⟩ := by
  induction fuel generalizing machine with
  | zero => simp [run]
  | succ fuel ih =>
      unfold run
      split
      next outcome after =>
        simp only [afterSteps_outcome, Option.some.injEq, Prod.mk.injEq, mk.injEq,
          Focus.outcome.injEq, true_and]
        constructor
        · exact fun h => ⟨0, Nat.succ_pos fuel, h⟩
        · rintro ⟨_, _, h⟩
          exact h
      next pending after =>
        simp [afterSteps_stuck]
      next hfinal _ =>
        rw [ih]
        constructor
        · rintro ⟨steps, hlt, h⟩
          exact ⟨steps + 1, Nat.succ_lt_succ hlt, h⟩
        · rintro ⟨steps, hlt, h⟩
          cases steps with
          | zero => exact absurd h (hfinal result session)
          | succ steps => exact ⟨steps, Nat.lt_of_succ_lt_succ hlt, h⟩

/-- More fuel does not change the outcome. -/
theorem run_mono {more : Nat} (hle : fuel ≤ more)
    (h : machine.run fuel = some (result, session)) :
    machine.run more = some (result, session) := by
  obtain ⟨steps, hlt, hend⟩ := run_eq_some_iff.mp h
  exact run_eq_some_iff.mpr ⟨steps, Nat.lt_of_lt_of_le hlt hle, hend⟩

/-! ## What a step can do -/

/-- What a step can make of a session. -/
inductive Effect (session : Session) : Session → Prop where
  | none : Effect session session
  | assign (index : Nat) (name : String) (value : Int64) :
      Effect session (session.setAt index name value)
  | print (value : Int64) : Effect session (session.print value)
  | enter (bindings : Table Int64) : Effect session (session.enter bindings)
  | leave (caller : Nat) : Effect session (session.leave caller)

/-- The machine goes on from a session with all of the pending tasks, and perhaps with more. -/
structure Continues (pending : List Pending) (session : Session) (next : Machine) : Prop where
  length_le : pending.length ≤ next.pending.length
  effect : Effect session next.session

section

variable (pending : List Pending) (session : Session)

theorem continues_call (function : Function) (bound : Table Int64) (arguments : Arguments) :
    Continues pending session (call function bound arguments pending session) := by
  unfold call
  split
  · exact ⟨Nat.le_succ _, .none⟩
  · split
    · exact ⟨Nat.le_refl _, .none⟩
    · exact ⟨Nat.le_succ _, .enter bound⟩

theorem continues_descend (expr : Expr) :
    Continues pending session (descend expr pending session) := by
  cases expr with
  | number => exact ⟨Nat.le_refl _, .none⟩
  | symbol name =>
      simp only [descend]
      cases session.environment.lookup name <;> exact ⟨Nat.le_refl _, .none⟩
  | block body =>
      cases body with
      | nil => exact ⟨Nat.le_refl _, .none⟩
      | cons first rest => exact ⟨Nat.le_succ _, .none⟩
  | call callee arguments =>
      simp only [descend]
      cases session.resolve callee arguments with
      | error fault => exact ⟨Nat.le_refl _, .none⟩
      | ok resolved => exact continues_call pending session resolved.1 .empty resolved.2
  | labelledCall callee arguments =>
      simp only [descend]
      cases session.resolveLabelled callee arguments with
      | error fault => exact ⟨Nat.le_refl _, .none⟩
      | ok resolved => exact continues_call pending session resolved.1 .empty resolved.2
  | assign | binary | ifThen | ifElse | loop | println => exact ⟨Nat.le_succ _, .none⟩

theorem continues_resume (value : Int64) (task : Pending) :
    Continues pending session (resume value task pending session) := by
  cases task with
  | assign name =>
      simp only [resume]
      cases session.environment.target? name with
      | some index => exact ⟨Nat.le_refl _, .assign index name value⟩
      | none => exact ⟨Nat.le_refl _, .none⟩
  | sequence rest =>
      cases rest with
      | nil => exact ⟨Nat.le_refl _, .none⟩
      | cons next rest => exact ⟨Nat.le_succ _, .none⟩
  | branch thenBody elseBody =>
      simp only [resume]
      split
      · exact ⟨Nat.le_refl _, .none⟩
      · cases elseBody <;> exact ⟨Nat.le_refl _, .none⟩
  | test condition body =>
      simp only [resume]
      split
      · exact ⟨Nat.le_succ _, .none⟩
      · exact ⟨Nat.le_refl _, .none⟩
  | argument function bound parameter rest =>
      exact continues_call pending session function (bound.insert parameter value) rest
  | leave caller => exact ⟨Nat.le_refl _, .leave caller⟩
  | print => exact ⟨Nat.le_refl _, .print value⟩
  | apply => exact ⟨Nat.le_refl _, .none⟩
  | rightOperand | again => exact ⟨Nat.le_succ _, .none⟩

end

/-- A step is done with one pending task at most, and it has one effect at most. -/
theorem continues_step (machine : Machine) :
    Continues machine.pending.tail machine.session machine.step := by
  obtain ⟨focus, pending, session⟩ := machine
  cases focus with
  | evaluate expr =>
      have hdescend := continues_descend pending session expr
      have htail : pending.tail.length ≤ pending.length := by simp
      exact ⟨Nat.le_trans htail hdescend.length_le, hdescend.effect⟩
  | stuck => exact ⟨by simp [step], .none⟩
  | outcome result =>
      cases pending with
      | nil => cases result <;> exact ⟨Nat.le_refl _, .none⟩
      | cons task pending =>
          cases result with
          | ok value => exact continues_resume pending session value task
          | error fault =>
              -- Of all the tasks that a fault passes by, only a call has an effect.
              refine ⟨Nat.le_refl _, ?_⟩
              cases task with
              | leave caller => exact .leave caller
              | _ => exact .none

theorem pending_length_le_of_afterSteps {steps : Nat}
    (h : afterSteps steps machine = ⟨.outcome result, [], session⟩) :
    machine.pending.length ≤ steps := by
  induction steps generalizing machine with
  | zero =>
      rw [afterSteps] at h
      rw [h]
      exact Nat.le_refl 0
  | succ steps ih =>
      have hstep := machine.continues_step.length_le
      have hrest := ih h
      rw [List.length_tail] at hstep
      omega

/-! ## Faults -/

/-- What is left of a session once all pending calls are left. -/
def unwindAll : List Pending → Session → Session
  | [], session => session
  | task :: pending, session => unwindAll pending (unwind task session)

theorem afterSteps_error (fault : RunFault) (pending : List Pending) (session : Session) :
    afterSteps pending.length ⟨.outcome (.error fault), pending, session⟩ =
      ⟨.outcome (.error fault), [], unwindAll pending session⟩ := by
  induction pending generalizing session with
  | nil => rfl
  | cons task pending ih => exact ih (unwind task session)

end IntScript.Machine

namespace IntScript.Session

variable {α β : Type} {session after : Session}

/-- Of two computations that cannot fail, the second goes on from where the first ends. -/
theorem stateBind_eq_some_iff {run : StateT Session Option α}
    {next : α → StateT Session Option β} {result : β} :
    (run >>= next) session = some (result, after) ↔
      ∃ value mid, run session = some (value, mid) ∧ next value mid = some (result, after) := by
  show (run session).bind _ = _ ↔ _
  rw [Option.bind_eq_some_iff]
  exact Prod.exists

/-- A sequence of computations fails with the first of them, or goes on from where that ends. -/
theorem bind_eq_some_iff {run : Run α} {next : α → Run β} {result : Except RunFault β} :
    (run >>= next) session = some (result, after) ↔
      (∃ fault, run session = some (.error fault, after) ∧ result = .error fault) ∨
        ∃ value mid, run session = some (.ok value, mid) ∧
          next value mid = some (result, after) := by
  have hbind : (run >>= next) session = some (result, after) ↔ ∃ outcome mid,
      run session = some (outcome, mid) ∧
        ExceptT.bindCont next outcome mid = some (result, after) := stateBind_eq_some_iff
  rw [hbind]
  constructor
  · rintro ⟨outcome, mid, hrun, hnext⟩
    cases outcome with
    | error fault =>
        cases hnext
        exact .inl ⟨fault, hrun, rfl⟩
    | ok value => exact .inr ⟨value, mid, hrun, hnext⟩
  · rintro (⟨fault, hrun, rfl⟩ | ⟨value, mid, hrun, hnext⟩)
    · exact ⟨.error fault, after, hrun, rfl⟩
    · exact ⟨.ok value, mid, hrun, hnext⟩

end IntScript.Session
