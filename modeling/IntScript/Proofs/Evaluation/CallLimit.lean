import IntScript.Proofs.Evaluation.Steps

/-!
# The call limit is a cut-off

The limit on calls has a say in one thing only: whether a call is entered or fails.  Two evaluations
that start alike, but under different limits, do the same step by step until the one with the lower
limit refuses a call that the other enters.  From then on the one does nothing but unwind, without
any effect that could be seen in the output, while the other can only add to it.

* `Machine.step_withLimit` : one step of the two, and `Machine.cutOff_run` : whole runs.
* `Session.RespectsLimit` : what holds of evaluations holds of computations made of them.
* `lower_limit_cuts_off` : the main result.
-/

namespace IntScript

namespace Session

/-- The session with another limit on calls. -/
def withLimit (session : Session) (limit : Nat) : Session :=
  { session with callLimit := limit }

@[simp] theorem withLimit_environment (session : Session) (limit : Nat) :
    (session.withLimit limit).environment = session.environment := rfl

@[simp] theorem withLimit_functions (session : Session) (limit : Nat) :
    (session.withLimit limit).functions = session.functions := rfl

@[simp] theorem withLimit_output (session : Session) (limit : Nat) :
    (session.withLimit limit).output = session.output := rfl

@[simp] theorem withLimit_callLimit (session : Session) (limit : Nat) :
    (session.withLimit limit).callLimit = limit := rfl

theorem withLimit_self {session : Session} {limit : Nat} (h : session.callLimit = limit) :
    session.withLimit limit = session := by
  subst h
  rfl

theorem resolve_withLimit (session : Session) (limit : Nat) (callee : String)
    (arguments : List Expr) :
    (session.withLimit limit).resolve callee arguments = session.resolve callee arguments := rfl

theorem resolveLabelled_withLimit (session : Session) (limit : Nat) (callee : String)
    (arguments : Arguments) :
    (session.withLimit limit).resolveLabelled callee arguments =
      session.resolveLabelled callee arguments := rfl

/-- A computation changes neither the limit nor what was written before. -/
structure Appends (before after : Session) : Prop where
  callLimit_eq : after.callLimit = before.callLimit
  output_eq : ∃ text, after.output = before.output.write text

namespace Appends

variable {first second third : Session}

theorem of_eq (hlimit : second.callLimit = first.callLimit)
    (houtput : second.output = first.output) : Appends first second :=
  ⟨hlimit, "", by rw [houtput, Output.write_empty]⟩

theorem refl (session : Session) : Appends session session :=
  of_eq rfl rfl

theorem trans (h : Appends first second) (h' : Appends second third) : Appends first third := by
  obtain ⟨text, htext⟩ := h.output_eq
  obtain ⟨text', htext'⟩ := h'.output_eq
  refine ⟨h'.callLimit_eq.trans h.callLimit_eq, text ++ text', ?_⟩
  rw [htext', htext, Output.write_write]

end Appends

end Session

open Session (Appends withLimit_environment resolve_withLimit resolveLabelled_withLimit)

/-! ## What is written -/

theorem Machine.Effect.appends {before after : Session} (h : Effect before after) :
    Appends before after := by
  cases h with
  | print value => exact ⟨rfl, _, Output.print_eq_write value before.output⟩
  | none | assign | enter | leave => exact .of_eq rfl rfl

namespace Machine

theorem appends_step (machine : Machine) : Appends machine.session machine.step.session :=
  machine.continues_step.effect.appends

theorem appends_afterSteps (steps : Nat) (machine : Machine) :
    Appends machine.session (afterSteps steps machine).session := by
  induction steps generalizing machine with
  | zero => exact .refl machine.session
  | succ steps ih => exact machine.appends_step.trans (ih machine.step)

theorem appends_unwindAll (pending : List Pending) (session : Session) :
    (unwindAll pending session).callLimit = session.callLimit ∧
      (unwindAll pending session).output = session.output := by
  induction pending generalizing session with
  | nil => exact ⟨rfl, rfl⟩
  | cons task pending ih => cases task <;> exact ih _

/-! ## Two machines in step -/

/-- The machine with another limit on calls. -/
def withLimit (machine : Machine) (limit : Nat) : Machine :=
  { machine with session := machine.session.withLimit limit }

/-- What two machines that were alike but for their limits have come to by one step: they are alike
again, or the one has refused a call, and the other has done no more than to enter it. -/
inductive InStep (high : Nat) (session : Session) : (lower upper : Machine) → Prop where
  | alike (machine : Machine) : InStep high session machine (machine.withLimit high)
  | parted {pending : List Pending} {upper : Machine}
      (hlength : pending.length ≤ upper.pending.length)
      (houtput : upper.session.output = session.output) :
      InStep high session
        ⟨.outcome (.error (.stackExhausted session.callLimit)), pending, session⟩ upper

section

variable {high : Nat} {session : Session}

theorem call_withLimit (hle : session.callLimit ≤ high) (function : Function)
    (bound : Table Int64) (arguments : Arguments) (pending : List Pending) :
    InStep high session (call function bound arguments pending session)
      (call function bound arguments pending (session.withLimit high)) := by
  cases arguments with
  | cons argument rest => exact .alike _
  | nil =>
      have hlower : session.isFull = decide (session.callLimit ≤ session.environment.depth) := rfl
      have hupper : (session.withLimit high).isFull =
          decide (high ≤ session.environment.depth) := rfl
      simp only [call, hlower, hupper, decide_eq_true_eq]
      by_cases hfull : session.callLimit ≤ session.environment.depth
      · rw [if_pos hfull]
        refine .parted ?_ ?_ <;> split
        · exact Nat.le_refl _
        · exact Nat.le_succ _
        · rfl
        · rfl
      · have hroom : ¬ high ≤ session.environment.depth := by omega
        rw [if_neg hfull, if_neg hroom]
        exact .alike _

theorem descend_withLimit (hle : session.callLimit ≤ high) (expr : Expr)
    (pending : List Pending) :
    InStep high session (descend expr pending session)
      (descend expr pending (session.withLimit high)) := by
  cases expr with
  | symbol name =>
      simp only [descend, withLimit_environment]
      cases session.environment.lookup name <;> exact .alike _
  | block body => cases body <;> exact .alike _
  | call callee arguments =>
      simp only [descend, resolve_withLimit]
      cases session.resolve callee arguments with
      | error fault => exact .alike _
      | ok resolved => exact call_withLimit hle resolved.1 .empty resolved.2 pending
  | labelledCall callee arguments =>
      simp only [descend, resolveLabelled_withLimit]
      cases session.resolveLabelled callee arguments with
      | error fault => exact .alike _
      | ok resolved => exact call_withLimit hle resolved.1 .empty resolved.2 pending
  | number | assign | binary | ifThen | ifElse | loop | println => exact .alike _

theorem resume_withLimit (hle : session.callLimit ≤ high) (value : Int64) (task : Pending)
    (pending : List Pending) :
    InStep high session (resume value task pending session)
      (resume value task pending (session.withLimit high)) := by
  cases task with
  | assign name =>
      simp only [resume, withLimit_environment]
      cases session.environment.target? name <;> exact .alike _
  | sequence rest => cases rest <;> exact .alike _
  | branch thenBody elseBody =>
      simp only [resume]
      split
      · exact .alike _
      · cases elseBody <;> exact .alike _
  | test condition body =>
      simp only [resume]
      split <;> exact .alike _
  | argument function bound parameter rest =>
      exact call_withLimit hle function (bound.insert parameter value) rest pending
  | rightOperand | apply | again | leave | print => exact .alike _

end

theorem step_withLimit {high : Nat} {machine : Machine}
    (hle : machine.session.callLimit ≤ high) :
    InStep high machine.session machine.step (machine.withLimit high).step := by
  obtain ⟨focus, pending, session⟩ := machine
  cases focus with
  | evaluate expr => exact descend_withLimit hle expr pending
  | stuck => exact .alike _
  | outcome result =>
      cases pending with
      | nil => cases result <;> exact .alike _
      | cons task pending =>
          cases result with
          | ok value => exact resume_withLimit hle value task pending
          | error fault => cases task <;> exact .alike _

end Machine

/-! ## Outcomes -/

/-- What the lower of two limits makes of an outcome.  Unless it is that the lower limit is
exhausted, the outcome under the lower limit is that under the higher one, as is the session apart
from the limit.  If there is an outcome under the higher limit then there is one under the lower,
and it is the same or else a cut-off, where less may have been written. -/
structure CutOff {α : Type} (low high : Nat)
    (lower upper : Option (Except RunFault α × Session)) : Prop where
  upper_of_lower : ∀ result after, lower = some (result, after) →
    (∀ limit, result ≠ .error (.stackExhausted limit)) →
    upper = some (result, after.withLimit high)
  lower_of_upper : ∀ result after, upper = some (result, after) →
    ∃ result' after', lower = some (result', after') ∧ after'.callLimit = low ∧
      ((result' = result ∧ after = after'.withLimit high) ∨
        (result' = .error (.stackExhausted low) ∧
          ∃ text, after.output = after'.output.write text))

namespace Machine

variable {low high fuel : Nat} {machine : Machine}

theorem afterSteps_error_focus (steps : Nat) (fault : RunFault) (pending : List Pending)
    (session : Session) :
    (afterSteps steps ⟨.outcome (.error fault), pending, session⟩).focus =
      .outcome (.error fault) := by
  induction steps generalizing pending session with
  | zero => rfl
  | succ steps ih => cases pending <;> exact ih _ _

/-- An outcome under the lower limit that is no cut-off comes about under the higher limit too, by
the same steps. -/
theorem afterSteps_withLimit {result : Except RunFault Int64} {after : Session}
    (hresult : ∀ limit, result ≠ .error (.stackExhausted limit)) {steps : Nat}
    (hle : machine.session.callLimit ≤ high)
    (h : afterSteps steps machine = ⟨.outcome result, [], after⟩) :
    afterSteps steps (machine.withLimit high) = ⟨.outcome result, [], after.withLimit high⟩ := by
  induction steps generalizing machine with
  | zero =>
      rw [afterSteps] at h ⊢
      rw [h]
      rfl
  | succ steps ih =>
      rw [afterSteps] at h ⊢
      have hlimit := machine.appends_step.callLimit_eq
      have hstep := step_withLimit hle
      generalize machine.step = lower at h hlimit hstep
      generalize (machine.withLimit high).step = upper at hstep ⊢
      cases hstep with
      | alike => exact ih (hlimit ▸ hle) h
      | @parted pending _ hlength houtput =>
          have hfocus := afterSteps_error_focus steps (.stackExhausted machine.session.callLimit)
            pending machine.session
          rw [h] at hfocus
          exact absurd (Focus.outcome.inj hfocus) (hresult _)

/-- An outcome under the higher limit comes about under the lower one as well, or is cut off, in no
more steps. -/
theorem exists_afterSteps_of_withLimit {result : Except RunFault Int64} {after : Session}
    {steps : Nat} (hlow : machine.session.callLimit = low) (hle : low ≤ high)
    (h : afterSteps steps (machine.withLimit high) = ⟨.outcome result, [], after⟩) :
    ∃ steps' ≤ steps, ∃ result' after',
      afterSteps steps' machine = ⟨.outcome result', [], after'⟩ ∧ after'.callLimit = low ∧
      ((result' = result ∧ after = after'.withLimit high) ∨
        (result' = .error (.stackExhausted low) ∧
          ∃ text, after.output = after'.output.write text)) := by
  subst hlow
  induction steps generalizing machine with
  | zero =>
      obtain ⟨focus, pending, session⟩ := machine
      obtain ⟨rfl, rfl, rfl⟩ := mk.inj h
      exact ⟨0, Nat.le_refl 0, result, session, rfl, rfl, .inl ⟨rfl, rfl⟩⟩
  | succ steps ih =>
      rw [afterSteps] at h
      have hlimit := machine.appends_step.callLimit_eq
      have hstep := step_withLimit hle
      generalize hlower : machine.step = lower at hlimit hstep
      generalize (machine.withLimit high).step = upper at h hstep
      cases hstep with
      | alike =>
          rw [← hlimit] at hle ⊢
          obtain ⟨steps', hsteps, result', after', hend, hrest⟩ := ih h hle
          refine ⟨steps' + 1, Nat.succ_le_succ hsteps, result', after', ?_, hrest⟩
          rw [afterSteps, hlower, hend]
      | @parted pending _ hlength houtput =>
          -- The refused call passes all pending tasks by, for each of which the other machine
          -- takes a step at least, and writes what it has to write.
          have hsteps := pending_length_le_of_afterSteps h
          have hunwound := appends_unwindAll pending machine.session
          have hwritten := (appends_afterSteps steps upper).output_eq
          refine ⟨pending.length + 1, Nat.succ_le_succ (Nat.le_trans hlength hsteps),
            .error (.stackExhausted machine.session.callLimit),
            unwindAll pending machine.session, ?_, hunwound.1, .inr ⟨rfl, ?_⟩⟩
          · rw [afterSteps, hlower, afterSteps_error]
          · rwa [h, houtput, ← hunwound.2] at hwritten

theorem cutOff_run (hlow : machine.session.callLimit = low) (hle : low ≤ high) :
    CutOff low high (machine.run fuel) ((machine.withLimit high).run fuel) where
  upper_of_lower := by
    intro result after hrun hresult
    obtain ⟨steps, hlt, hend⟩ := run_eq_some_iff.mp hrun
    exact run_eq_some_iff.mpr ⟨steps, hlt, afterSteps_withLimit hresult (hlow ▸ hle) hend⟩
  lower_of_upper := by
    intro result after hrun
    obtain ⟨steps, hlt, hend⟩ := run_eq_some_iff.mp hrun
    obtain ⟨steps', hsteps, result', after', hend', hrest⟩ :=
      exists_afterSteps_of_withLimit hlow hle hend
    exact ⟨result', after',
      run_eq_some_iff.mpr ⟨steps', Nat.lt_of_le_of_lt hsteps hlt, hend'⟩, hrest⟩

end Machine

/-! ## Computations -/

namespace CutOff

variable {α : Type} {low high : Nat}

/-- The limit had no say. -/
theorem alike (result : Except RunFault α) (session : Session) :
    CutOff low high (some (result, session.withLimit low))
      (some (result, session.withLimit high)) where
  upper_of_lower := by
    rintro _ _ h -
    cases h
    rfl
  lower_of_upper := by
    intro _ _ h
    cases h
    exact ⟨result, session.withLimit low, rfl, rfl, .inl ⟨rfl, rfl⟩⟩

end CutOff

namespace Session

/-- The call limit is a cut-off for the computation, which does not change it. -/
structure RespectsLimit {α : Type} (run : Run α) : Prop where
  appends : ∀ ⦃session : Session⦄ ⦃result : Except RunFault α⦄ ⦃after : Session⦄,
    run session = some (result, after) → Appends session after
  cutOff : ∀ (session : Session) {low high : Nat}, low ≤ high →
    CutOff low high (run (session.withLimit low)) (run (session.withLimit high))

namespace RespectsLimit

variable {α β : Type}

theorem bind {run : Run α} {next : α → Run β} (hrun : RespectsLimit run)
    (hnext : ∀ value, RespectsLimit (next value)) : RespectsLimit (run >>= next) where
  appends := by
    intro session result after h
    rcases bind_eq_some_iff.mp h with ⟨fault, hfault, -⟩ | ⟨value, mid, hvalue, hafter⟩
    · exact hrun.appends hfault
    · exact (hrun.appends hvalue).trans ((hnext value).appends hafter)
  cutOff := by
    intro session low high hle
    have hfirst := hrun.cutOff session hle
    constructor
    · intro result after h hresult
      rw [bind_eq_some_iff] at h ⊢
      rcases h with ⟨fault, hfault, rfl⟩ | ⟨value, mid, hvalue, hafter⟩
      · refine .inl ⟨fault, hfirst.upper_of_lower _ _ hfault fun limit heq => ?_, rfl⟩
        exact hresult limit (congrArg Except.error (Except.error.inj heq))
      · refine .inr ⟨value, mid.withLimit high, hfirst.upper_of_lower _ _ hvalue nofun, ?_⟩
        have hlimit : mid.callLimit = low := (hrun.appends hvalue).callLimit_eq
        have hsecond := (hnext value).cutOff mid hle
        rw [withLimit_self hlimit] at hsecond
        exact hsecond.upper_of_lower _ _ hafter hresult
    · intro result after h
      rcases bind_eq_some_iff.mp h with ⟨fault, hfault, rfl⟩ | ⟨value, mid, hvalue, hafter⟩
      · obtain ⟨result', after', hlower, hlimit, ⟨rfl, hsame⟩ | ⟨rfl, hwritten⟩⟩ :=
          hfirst.lower_of_upper _ _ hfault
        · exact ⟨_, after', bind_eq_some_iff.mpr (.inl ⟨fault, hlower, rfl⟩), hlimit,
            .inl ⟨rfl, hsame⟩⟩
        · exact ⟨_, after', bind_eq_some_iff.mpr (.inl ⟨_, hlower, rfl⟩), hlimit,
            .inr ⟨rfl, hwritten⟩⟩
      · obtain ⟨result', mid', hlower, hlimit, ⟨rfl, hsame⟩ | ⟨rfl, hwritten⟩⟩ :=
          hfirst.lower_of_upper _ _ hvalue
        · have hsecond := (hnext value).cutOff mid' hle
          rw [withLimit_self hlimit, ← hsame] at hsecond
          obtain ⟨result', after', hlower', hrest⟩ := hsecond.lower_of_upper _ _ hafter
          exact ⟨result', after', bind_eq_some_iff.mpr (.inr ⟨value, mid', hlower, hlower'⟩),
            hrest⟩
        · -- Cut off in the first computation, while the second one goes on to write.
          obtain ⟨text, htext⟩ := hwritten
          obtain ⟨text', htext'⟩ := ((hnext value).appends hafter).output_eq
          refine ⟨_, mid', bind_eq_some_iff.mpr (.inl ⟨_, hlower, rfl⟩), hlimit,
            .inr ⟨rfl, text ++ text', ?_⟩⟩
          rw [htext', htext, Output.write_write]

theorem pure (value : α) : RespectsLimit (Pure.pure value : Run α) where
  appends := by
    intro session result after h
    cases h
    exact .refl session
  cutOff := fun session _ _ _ => .alike (.ok value) session

/-- What is computed of the session must not depend on its limit. -/
theorem get_bind {next : Session → Run β} (hnext : ∀ session, RespectsLimit (next session))
    (hlimit : ∀ session limit, next (session.withLimit limit) = next session) :
    RespectsLimit (get >>= next) where
  appends := fun session _ _ h => (hnext session).appends h
  cutOff := by
    intro session low high hle
    have hcutOff := (hnext session).cutOff session hle
    show CutOff low high (next (session.withLimit low) (session.withLimit low))
      (next (session.withLimit high) (session.withLimit high))
    rwa [hlimit, hlimit]

theorem modify {change : Session → Session}
    (happends : ∀ session, Appends session (change session))
    (hlimit : ∀ session limit,
      change (session.withLimit limit) = (change session).withLimit limit) :
    RespectsLimit (modify change : Run Unit) where
  appends := by
    intro session result after h
    cases h
    exact happends session
  cutOff := by
    intro session low high _
    show CutOff low high (some (.ok (), change (session.withLimit low)))
      (some (.ok (), change (session.withLimit high)))
    rw [hlimit, hlimit]
    exact .alike (.ok ()) (change session)

theorem entryPoint (session : Session) :
    RespectsLimit (liftM (Session.entryPoint session) : Run Function) where
  appends := by
    intro before result after h
    cases hentry : Session.entryPoint session <;> rw [hentry] at h <;> cases h <;>
      exact .refl before
  cutOff := by
    intro other low high _
    cases Session.entryPoint session with
    | error fault => exact .alike (.error fault) other
    | ok main => exact .alike (.ok main) other

theorem evaluate (fuel : Nat) (expr : Expr) : RespectsLimit (Session.evaluate fuel expr) where
  appends := by
    intro session result after h
    obtain ⟨steps, -, hend⟩ := Machine.run_eq_some_iff.mp h
    have happends := Machine.appends_afterSteps steps ⟨.evaluate expr, [], session⟩
    rwa [hend] at happends
  cutOff := fun session _ _ hle => Machine.cutOff_run rfl hle

theorem define (fuel : Nat) (definition : Definition) :
    RespectsLimit (Session.define fuel definition) := by
  cases definition with
  | function f => exact modify (fun _ => .of_eq rfl rfl) fun _ _ => rfl
  | global name value =>
      exact (evaluate fuel value).bind fun number =>
        modify (fun _ => .of_eq rfl rfl) fun _ _ => rfl

theorem register (fuel : Nat) (program : Program) :
    RespectsLimit (Session.register fuel program) := by
  induction program with
  | nil => exact pure ()
  | cons definition rest ih => exact (define fuel definition).bind fun _ => ih

theorem runProgram (fuel : Nat) (program : Program) :
    RespectsLimit (Session.runProgram fuel program) := by
  refine (register fuel program).bind fun _ => get_bind (fun session => ?_) fun _ _ => rfl
  exact (entryPoint session).bind fun main => evaluate fuel main.body

end RespectsLimit

end Session

/-- Of two evaluations, or of two runs of a program, that differ in the limit on calls, the one with
the lower limit does the same as the other unless it is cut off. -/
theorem lower_limit_cuts_off (session : Session) (low high : Nat) (hle : low ≤ high) (fuel : Nat) :
    (∀ expr, CutOff low high (Session.evaluate fuel expr (session.withLimit low))
      (Session.evaluate fuel expr (session.withLimit high))) ∧
    (∀ program, CutOff low high (Session.runProgram fuel program (session.withLimit low))
      (Session.runProgram fuel program (session.withLimit high))) :=
  ⟨fun expr => (Session.RespectsLimit.evaluate fuel expr).cutOff session hle,
    fun program => (Session.RespectsLimit.runProgram fuel program).cutOff session hle⟩

/-- A countdown that nests three calls, under a limit of three and cut off under a limit of two. -/
theorem lower_limit_cuts_off_countdown : ∃ session upper lower : Session, 2 ≤ 3 ∧
    Session.evaluate 60 (.call "f" [.number 2]) (session.withLimit 3) = some (.ok 1, upper) ∧
    Session.evaluate 60 (.call "f" [.number 2]) (session.withLimit 2) =
      some (.error (.stackExhausted 2), lower) ∧
    upper.output = .buffer "2\n1\n0\n" ∧ lower.output = .buffer "2\n1\n" ∧
    ∃ text, upper.output = lower.output.write text := by
  obtain ⟨session, upper, hupper, houtput, lower, hlower, houtput'⟩ :
      ∃ session upper : Session,
        Session.evaluate 60 (.call "f" [.number 2]) (session.withLimit 3) = some (.ok 1, upper) ∧
        upper.output = .buffer "2\n1\n0\n" ∧
        ∃ lower : Session,
          Session.evaluate 60 (.call "f" [.number 2]) (session.withLimit 2) =
            some (.error (.stackExhausted 2), lower) ∧ lower.output = .buffer "2\n1\n" :=
    ⟨(Session.initial 0 (.buffer "")).defineFunction ⟨"f", ["n"], .block
        [.println (.symbol "n"), .ifThen (.symbol "n")
          (.call "f" [.binary .subtract (.symbol "n") (.number 1)])]⟩,
      _, rfl, rfl, _, rfl, rfl⟩
  have hcutOff := (lower_limit_cuts_off session 2 3 (by decide) 60).1 (.call "f" [.number 2])
  obtain ⟨result, after, hafter, -, ⟨rfl, -⟩ | ⟨-, hwritten⟩⟩ :=
    hcutOff.lower_of_upper (.ok 1) upper hupper
  · cases hlower.symm.trans hafter
  · cases hlower.symm.trans hafter
    exact ⟨session, upper, lower, by decide, hupper, hlower, houtput, houtput', hwritten⟩

end IntScript
