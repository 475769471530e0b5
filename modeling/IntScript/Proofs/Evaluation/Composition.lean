import IntScript.Proofs.Evaluation.Steps

/-!
# Lines of a block

The lines of a block are evaluated one after the other by one machine, with the rest of the block as
a pending task.  Evaluated from outside, each of them has a machine of its own, which starts where
the one before has come to its end.  It makes no difference, because a step looks at the first
pending task at most.

* `Machine.under` : a machine with further tasks below its own.  As long as it has not come to its
  end, it takes the same steps (`Machine.ended_or_step_under`).
* `Machine.endsWith_under_iff` : it comes to its end, and then the tasks below are done.  The two
  directions are by induction on the steps of the one and of the other machine.
* `Machine.endsWith_sequence_iff` : the rest of a block comes to what its lines come to, by
  induction on the lines.
* `Session.evaluate_block_iff` : the main result.
-/

namespace IntScript

namespace Machine

/-! ## Tasks below -/

/-- The machine with further tasks below those that are pending. -/
def under (machine : Machine) (below : List Pending) : Machine :=
  { machine with pending := machine.pending ++ below }

section

variable (pending below : List Pending) (session : Session)

theorem call_under (function : Function) (bound : Table Int64) (arguments : Arguments) :
    call function bound arguments (pending ++ below) session =
      (call function bound arguments pending session).under below := by
  cases arguments with
  | cons argument rest => rfl
  | nil =>
      simp only [call]
      split <;> rfl

theorem descend_under (expr : Expr) :
    descend expr (pending ++ below) session = (descend expr pending session).under below := by
  cases expr with
  | symbol name =>
      simp only [descend]
      cases session.environment.lookup name <;> rfl
  | block body => cases body <;> rfl
  | call callee arguments =>
      simp only [descend]
      cases session.resolve callee arguments with
      | error fault => rfl
      | ok resolved => exact call_under pending below session resolved.1 .empty resolved.2
  | labelledCall callee arguments =>
      simp only [descend]
      cases session.resolveLabelled callee arguments with
      | error fault => rfl
      | ok resolved => exact call_under pending below session resolved.1 .empty resolved.2
  | number | assign | binary | ifThen | ifElse | loop | println => rfl

theorem resume_under (value : Int64) (task : Pending) :
    resume value task (pending ++ below) session =
      (resume value task pending session).under below := by
  cases task with
  | assign name =>
      simp only [resume]
      cases session.environment.target? name <;> rfl
  | sequence rest => cases rest <;> rfl
  | branch thenBody elseBody =>
      simp only [resume]
      split
      · rfl
      · cases elseBody <;> rfl
  | test condition body =>
      simp only [resume]
      split <;> rfl
  | argument function bound parameter rest =>
      exact call_under pending below session function (bound.insert parameter value) rest
  | rightOperand | apply | again | leave | print => rfl

end

/-- A machine takes the same step, unless it has come to its end. -/
theorem ended_or_step_under (machine : Machine) (below : List Pending) :
    (∃ result session, machine = ⟨.outcome result, [], session⟩) ∨
      (machine.under below).step = machine.step.under below := by
  obtain ⟨focus, pending, session⟩ := machine
  cases focus with
  | evaluate expr => exact .inr (descend_under pending below session expr)
  | stuck => exact .inr rfl
  | outcome result =>
      cases pending with
      | nil => exact .inl ⟨result, session, rfl⟩
      | cons task pending =>
          cases result with
          | ok value => exact .inr (resume_under pending below session value task)
          | error fault => exact .inr rfl

/-! ## Ends -/

/-- The machine comes to its end with the outcome and the session. -/
def EndsWith (machine : Machine) (result : Except RunFault Int64) (session : Session) : Prop :=
  ∃ steps, afterSteps steps machine = ⟨.outcome result, [], session⟩

section

variable {machine : Machine} {result : Except RunFault Int64} {session after : Session}
  {below : List Pending}

theorem exists_run_eq_some_iff :
    (∃ fuel, machine.run fuel = some (result, session)) ↔ machine.EndsWith result session := by
  constructor
  · rintro ⟨fuel, h⟩
    obtain ⟨steps, -, hend⟩ := run_eq_some_iff.mp h
    exact ⟨steps, hend⟩
  · rintro ⟨steps, hend⟩
    exact ⟨steps + 1, run_eq_some_iff.mpr ⟨steps, Nat.lt_succ_self steps, hend⟩⟩

theorem endsWith_outcome_iff {other : Except RunFault Int64} :
    EndsWith ⟨.outcome other, [], session⟩ result after ↔ result = other ∧ after = session := by
  constructor
  · rintro ⟨steps, hend⟩
    rw [afterSteps_outcome] at hend
    cases hend
    exact ⟨rfl, rfl⟩
  · rintro ⟨rfl, rfl⟩
    exact ⟨0, rfl⟩

/-- A machine that has come to its end stays there, so that a step more or less does not matter. -/
theorem endsWith_step_iff : machine.step.EndsWith result session ↔
    machine.EndsWith result session := by
  constructor
  · rintro ⟨steps, hend⟩
    exact ⟨steps + 1, hend⟩
  · rintro ⟨steps, hend⟩
    cases steps with
    | succ steps => exact ⟨steps, hend⟩
    | zero =>
        obtain rfl : machine = ⟨.outcome result, [], session⟩ := hend
        exact ⟨0, afterSteps_outcome 1 result session⟩

/-- A machine comes to its end, and then the tasks below it are done. -/
theorem endsWith_under_iff : (machine.under below).EndsWith result after ↔
    ∃ other mid, machine.EndsWith other mid ∧
      EndsWith ⟨.outcome other, below, mid⟩ result after := by
  constructor
  · rintro ⟨steps, hend⟩
    induction steps generalizing machine with
    | zero =>
        -- Nothing is pending, neither in the machine nor below it.
        obtain ⟨focus, pending, session⟩ := machine
        obtain ⟨rfl, hpending, rfl⟩ := Machine.mk.inj hend
        obtain ⟨rfl, rfl⟩ := List.append_eq_nil_iff.mp hpending
        exact ⟨result, session, ⟨0, rfl⟩, 0, rfl⟩
    | succ steps ih =>
        rcases ended_or_step_under machine below with ⟨other, mid, rfl⟩ | hstep
        · exact ⟨other, mid, ⟨0, rfl⟩, steps + 1, hend⟩
        · rw [afterSteps, hstep] at hend
          obtain ⟨other, mid, hmachine, hbelow⟩ := ih hend
          exact ⟨other, mid, endsWith_step_iff.mp hmachine, hbelow⟩
  · rintro ⟨other, mid, ⟨steps, hend⟩, hbelow⟩
    induction steps generalizing machine with
    | zero =>
        obtain rfl : machine = ⟨.outcome other, [], mid⟩ := hend
        exact hbelow
    | succ steps ih =>
        rcases ended_or_step_under machine below with ⟨result, session, rfl⟩ | hstep
        · rw [afterSteps_outcome] at hend
          cases hend
          exact hbelow
        · rw [← endsWith_step_iff, hstep]
          exact ih hend

end

end Machine

/-! ## Lines one after the other -/

namespace Session

open Machine (EndsWith endsWith_step_iff endsWith_outcome_iff endsWith_under_iff
  exists_run_eq_some_iff)

/-- What evaluations come to: the fault of the one that failed, or else the last value, and `value`
if there is none. -/
def outcomeOf (value : Int64) (values : List Int64) : Option RunFault → Except RunFault Int64
  | some fault => .error fault
  | none => .ok (values.getLast?.getD value)

theorem outcomeOf_cons (value next : Int64) (others : List Int64) (fault : Option RunFault) :
    outcomeOf value (next :: others) fault = outcomeOf next others fault := by
  cases fault with
  | some cause => rfl
  | none => rw [outcomeOf, List.getLast?_cons, Option.getD_some, outcomeOf]

section

variable {fuel : Nat} {expr : Expr} {rest : List Expr} {session mid after : Session}
  {values : List Int64} {fault : Option RunFault}

theorem evaluateAll_nil_eq_some_iff : evaluateAll fuel [] session = some ((values, fault), after) ↔
    values = [] ∧ fault = none ∧ after = session := by
  constructor
  · intro h
    cases h
    exact ⟨rfl, rfl, rfl⟩
  · rintro ⟨rfl, rfl, rfl⟩
    rfl

/-- Either the first line fails or the others are evaluated where it ends. -/
theorem evaluateAll_cons_eq_some_iff :
    evaluateAll fuel (expr :: rest) session = some ((values, fault), after) ↔
      (∃ cause, evaluate fuel expr session = some (.error cause, after) ∧
        values = [] ∧ fault = some cause) ∨
      ∃ value mid others, evaluate fuel expr session = some (.ok value, mid) ∧
        evaluateAll fuel rest mid = some ((others, fault), after) ∧ values = value :: others := by
  rw [evaluateAll, stateBind_eq_some_iff]
  constructor
  · rintro ⟨outcome, mid, hfirst, hnext⟩
    cases outcome with
    | error cause =>
        cases hnext
        exact .inl ⟨cause, hfirst, rfl, rfl⟩
    | ok value =>
        obtain ⟨⟨others, cause⟩, last, hrest, hlast⟩ := stateBind_eq_some_iff.mp hnext
        cases hlast
        exact .inr ⟨value, mid, others, hfirst, hrest, rfl⟩
  · rintro (⟨cause, hfirst, rfl, rfl⟩ | ⟨value, mid, others, hfirst, hrest, rfl⟩)
    · exact ⟨.error cause, after, hfirst, rfl⟩
    · exact ⟨.ok value, mid, hfirst,
        stateBind_eq_some_iff.mpr ⟨(others, fault), after, hrest, rfl⟩⟩

/-- More fuel does not change what lines come to. -/
theorem evaluateAll_mono {more : Nat} (hle : fuel ≤ more)
    (h : evaluateAll fuel rest session = some ((values, fault), after)) :
    evaluateAll more rest session = some ((values, fault), after) := by
  induction rest generalizing session values with
  | nil => exact h
  | cons expr rest ih =>
      rw [evaluateAll_cons_eq_some_iff] at h ⊢
      rcases h with ⟨cause, hfirst, rfl, rfl⟩ | ⟨value, mid, others, hfirst, hrest, rfl⟩
      · exact .inl ⟨cause, Machine.run_mono hle hfirst, rfl, rfl⟩
      · exact .inr ⟨value, mid, others, Machine.run_mono hle hfirst, ih hrest, rfl⟩

/-- The rest of a block comes to what its lines come to. -/
theorem endsWith_sequence_iff {value : Int64} {result : Except RunFault Int64} :
    EndsWith ⟨.outcome (.ok value), [.sequence rest], session⟩ result after ↔
      ∃ fuel values fault, evaluateAll fuel rest session = some ((values, fault), after) ∧
        result = outcomeOf value values fault := by
  induction rest generalizing value session with
  | nil =>
      rw [← endsWith_step_iff]
      constructor
      · intro hend
        obtain ⟨rfl, rfl⟩ := endsWith_outcome_iff.mp hend
        exact ⟨0, [], none, rfl, rfl⟩
      · rintro ⟨fuel, values, fault, hlines, rfl⟩
        obtain ⟨rfl, rfl, rfl⟩ := evaluateAll_nil_eq_some_iff.mp hlines
        exact endsWith_outcome_iff.mpr ⟨rfl, rfl⟩
  | cons expr rest ih =>
      have hstep : Machine.step ⟨.outcome (.ok value), [.sequence (expr :: rest)], session⟩ =
          Machine.under ⟨.evaluate expr, [], session⟩ [.sequence rest] := rfl
      rw [← endsWith_step_iff, hstep, endsWith_under_iff]
      constructor
      · rintro ⟨other, mid, hfirst, hrest⟩
        obtain ⟨fuel, hfirst⟩ := exists_run_eq_some_iff.mpr hfirst
        cases other with
        | error cause =>
            rw [← endsWith_step_iff] at hrest
            obtain ⟨rfl, rfl⟩ := endsWith_outcome_iff.mp hrest
            exact ⟨fuel, [], some cause,
              evaluateAll_cons_eq_some_iff.mpr (.inl ⟨cause, hfirst, rfl, rfl⟩), rfl⟩
        | ok next =>
            obtain ⟨fuel', others, fault, hothers, rfl⟩ := ih.mp hrest
            refine ⟨max fuel fuel', next :: others, fault, ?_, (outcomeOf_cons ..).symm⟩
            have hfirst := Machine.run_mono (Nat.le_max_left fuel fuel') hfirst
            have hothers := evaluateAll_mono (Nat.le_max_right fuel fuel') hothers
            exact evaluateAll_cons_eq_some_iff.mpr
              (.inr ⟨next, mid, others, hfirst, hothers, rfl⟩)
      · rintro ⟨fuel, values, fault, hlines, rfl⟩
        rcases evaluateAll_cons_eq_some_iff.mp hlines with
          ⟨cause, hfirst, rfl, rfl⟩ | ⟨next, mid, others, hfirst, hrest, rfl⟩
        · refine ⟨.error cause, after, exists_run_eq_some_iff.mp ⟨fuel, hfirst⟩, ?_⟩
          rw [← endsWith_step_iff]
          exact endsWith_outcome_iff.mpr ⟨rfl, rfl⟩
        · refine ⟨.ok next, mid, exists_run_eq_some_iff.mp ⟨fuel, hfirst⟩, ?_⟩
          exact ih.mpr ⟨fuel, others, fault, hrest, outcomeOf_cons ..⟩

/-- A block comes to what its lines come to, evaluated one after the other: the session is the same,
and so is the fault if one of them fails, or else the value. -/
theorem evaluate_block_iff {lines : List Expr} {result : Except RunFault Int64} :
    (∃ fuel, evaluate fuel (.block lines) session = some (result, after)) ↔
      ∃ fuel values fault, evaluateAll fuel lines session = some ((values, fault), after) ∧
        result = outcomeOf 0 values fault := by
  have hrun : (∃ fuel, evaluate fuel (.block lines) session = some (result, after)) ↔
      EndsWith ⟨.evaluate (.block lines), [], session⟩ result after := exists_run_eq_some_iff
  -- A block starts as the rest of a block does behind a line with the value 0.
  have hstep : Machine.step ⟨.evaluate (.block lines), [], session⟩ =
      Machine.step ⟨.outcome (.ok 0), [.sequence lines], session⟩ := by
    cases lines <;> rfl
  rw [hrun, ← endsWith_step_iff, hstep, endsWith_step_iff, endsWith_sequence_iff]

end

end Session

end IntScript
