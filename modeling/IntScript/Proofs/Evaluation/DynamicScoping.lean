import IntScript.Proofs.Evaluation.Arena

/-!
# The frames implement dynamic scoping

An evaluator with frames, parents and a current frame does, step by step, what the evaluator over a
list of scopes does: what its frames show along the parents is that list.

* `Machine.Mirrors.step` : one step of the two.  What the two have in common is that the environment
  is the one of the list of scopes, and that every pending call goes back to the frame below its
  own.
* `Session.Agree` : what holds of evaluations holds of computations made of them.
* `frames_implement_dynamic_scoping` : the main result.
-/

namespace IntScript

open Environment (ofScopes)

/-! ## Reading frames as scopes -/

/-- The task without the frame to go back to. -/
def Pending.task : Pending → Scoped.Task
  | assign name => .assign name
  | rightOperand op right => .rightOperand op right
  | apply op left => .apply op left
  | sequence rest => .sequence rest
  | branch thenBody elseBody => .branch thenBody elseBody
  | test condition body => .test condition body
  | again condition body => .again condition body
  | argument function bound parameter rest => .argument function bound parameter rest
  | leave _ => .leave
  | print => .print

/-- What a session shows from the current frame along the parents. -/
def Session.view (session : Session) : Scoped.State :=
  ⟨session.environment.scopes, session.functions, session.callLimit, session.output⟩

/-- What a machine shows. -/
def Machine.view (machine : Machine) : Scoped.Machine :=
  ⟨machine.focus, machine.pending.map Pending.task, machine.session.view⟩

namespace Scoped.State

/-- The session with a frame for each scope. -/
def session (state : State) : Session :=
  ⟨ofScopes state.scopes, state.functions, state.callLimit, state.output⟩

variable {state : State}

theorem view_session (h : state.scopes ≠ []) : state.session.view = state := by
  rw [Session.view, session, Environment.scopes_ofScopes h]

theorem resolve_session (state : State) (callee : String) (arguments : List Expr) :
    state.session.resolve callee arguments = state.resolve callee arguments := by
  simp only [Session.resolve, Session.function, resolve, session]
  cases state.functions.get? callee <;> rfl

theorem resolveLabelled_session (state : State) (callee : String) (arguments : Arguments) :
    state.session.resolveLabelled callee arguments = state.resolveLabelled callee arguments := by
  simp only [Session.resolveLabelled, Session.function, resolveLabelled, session]
  cases state.functions.get? callee with
  | none => rfl
  | some function => cases function.matchLabels arguments <;> rfl

theorem isFull_session (h : state.scopes ≠ []) :
    state.session.isFull = decide (state.callLimit < state.scopes.length) := by
  have hpos := List.length_pos_iff.mpr h
  have hdepth : state.session.environment.depth = state.scopes.length - 1 :=
    congrArg (· - 1) (Environment.size_ofScopes h)
  rw [Session.isFull, hdepth, decide_eq_decide]
  show state.callLimit ≤ _ ↔ _
  omega

theorem enter_session (h : state.scopes ≠ []) (bound : Table Int64) :
    state.session.enter bound = (state.enter bound).session := by
  rw [Session.enter, session, session, enter, Environment.ofScopes_cons bound h]

theorem exists_target_session (h : state.scopes ≠ []) (name : String) (value : Int64) :
    ∃ index, state.session.environment.target? name = some index ∧
      state.session.setAt index name value = (state.assign name value).session := by
  obtain ⟨index, htarget, hset⟩ := Environment.exists_target_ofScopes h name value
  refine ⟨index, htarget, ?_⟩
  rw [Session.setAt, session, session, assign, hset]

end Scoped.State

/-! ## Steps -/

namespace Machine

open Scoped (State)

/-- The calls that are pending when there are so many scopes: each goes back to the frame below its
own, and the global frame is no call's. -/
def Stacked : List Pending → (height : Nat) → Prop
  | [], height => 0 < height
  | .leave caller :: pending, height => height = caller + 2 ∧ Stacked pending (caller + 1)
  | _ :: pending, height => Stacked pending height

theorem Stacked.cons {task : Pending} (htask : ∀ caller, task ≠ .leave caller)
    {pending : List Pending} {height : Nat} :
    Stacked (task :: pending) height ↔ Stacked pending height := by
  cases task with
  | leave caller => exact absurd rfl (htask caller)
  | _ => exact Iff.rfl

theorem Stacked.pos {pending : List Pending} {height : Nat} (h : Stacked pending height) :
    0 < height := by
  induction pending with
  | nil => exact h
  | cons task pending ih =>
      cases task with
      | leave caller => rw [h.1]; exact Nat.succ_pos _
      | _ => exact ih h

/-- The machine does the same as one over a list of scopes, in the environment of that list. -/
inductive Mirrors : Machine → Scoped.Machine → Prop where
  | mk (focus : Focus) {pending : List Pending} {state : State}
      (h : Stacked pending state.scopes.length) :
      Mirrors ⟨focus, pending, state.session⟩ ⟨focus, pending.map Pending.task, state⟩

namespace Mirrors

variable {pending : List Pending} {state : State}

theorem start (focus : Focus) (hne : state.scopes ≠ []) :
    Mirrors ⟨focus, [], state.session⟩ ⟨focus, [], state⟩ := by
  have hstacked : Stacked [] state.scopes.length := List.length_pos_iff.mpr hne
  exact mk focus hstacked

theorem of_cons (focus : Focus) {task : Pending} (htask : ∀ caller, task ≠ .leave caller)
    (h : Stacked pending state.scopes.length) :
    Mirrors ⟨focus, task :: pending, state.session⟩
      ⟨focus, task.task :: pending.map Pending.task, state⟩ :=
  mk focus ((Stacked.cons htask).mpr h)

theorem call (h : Stacked pending state.scopes.length) (function : Function)
    (bound : Table Int64) (arguments : Arguments) :
    Mirrors (Machine.call function bound arguments pending state.session)
      (Scoped.Machine.call function bound arguments (pending.map Pending.task) state) := by
  have hne := List.length_pos_iff.mp h.pos
  cases arguments with
  | cons argument rest => exact of_cons _ (by simp) h
  | nil =>
      simp only [Machine.call, Scoped.Machine.call, State.isFull_session hne, decide_eq_true_eq]
      split
      · exact mk _ h
      · have hcurrent := Environment.current_ofScopes hne
        rw [State.enter_session hne]
        refine mk (.evaluate function.body) (show Stacked (.leave _ :: pending) _ from ?_)
        have hheight : (state.enter bound).scopes.length = state.scopes.length + 1 := rfl
        rw [hheight, ← hcurrent]
        exact ⟨rfl, hcurrent ▸ h⟩

theorem descend (h : Stacked pending state.scopes.length) (expr : Expr) :
    Mirrors (Machine.descend expr pending state.session)
      (Scoped.Machine.descend expr (pending.map Pending.task) state) := by
  have hne := List.length_pos_iff.mp h.pos
  cases expr with
  | number value => exact mk _ h
  | symbol name =>
      have hlookup := Environment.lookup_ofScopes hne name
      simp only [Machine.descend, Scoped.Machine.descend, State.session, hlookup]
      cases state.scopes.lookup name <;> exact mk _ h
  | block body =>
      cases body with
      | nil => exact mk _ h
      | cons first rest => exact of_cons _ (by simp) h
  | call callee arguments =>
      simp only [Machine.descend, Scoped.Machine.descend, State.resolve_session]
      cases state.resolve callee arguments with
      | error fault => exact mk _ h
      | ok resolved => exact call h resolved.1 .empty resolved.2
  | labelledCall callee arguments =>
      simp only [Machine.descend, Scoped.Machine.descend, State.resolveLabelled_session]
      cases state.resolveLabelled callee arguments with
      | error fault => exact mk _ h
      | ok resolved => exact call h resolved.1 .empty resolved.2
  | assign | binary | ifThen | ifElse | loop | println => exact of_cons _ (by simp) h

/-- Leaving a call drops the innermost scope. -/
theorem leave (focus : Focus) {caller : Nat}
    (h : Stacked (.leave caller :: pending) state.scopes.length) :
    Mirrors ⟨focus, pending, state.session.leave caller⟩
      ⟨focus, pending.map Pending.task, state.leave⟩ := by
  obtain ⟨hheight, hpending⟩ := h
  obtain ⟨scopes, functions, callLimit, output⟩ := state
  obtain ⟨scope, outer, rfl⟩ := List.exists_cons_of_length_eq_add_one hheight
  have houter : outer.length = caller + 1 := Nat.succ.inj hheight
  have hne : outer ≠ [] := List.ne_nil_of_length_eq_add_one houter
  have hpop := Environment.pop_ofScopes scope hne houter.symm
  have hleave : (State.session ⟨scope :: outer, functions, callLimit, output⟩).leave caller =
      State.session ⟨outer, functions, callLimit, output⟩ := by
    rw [Session.leave, State.session, State.session, hpop]
  rw [hleave]
  exact mk focus (houter ▸ hpending)

theorem resume {task : Pending} (h : Stacked (task :: pending) state.scopes.length)
    (value : Int64) :
    Mirrors (Machine.resume value task pending state.session)
      (Scoped.Machine.resume value task.task (pending.map Pending.task) state) := by
  cases task with
  | assign name =>
      have hbelow := (Stacked.cons (by simp)).mp h
      have hne := List.length_pos_iff.mp h.pos
      obtain ⟨index, htarget, hset⟩ := State.exists_target_session hne name value
      have hheight : (state.assign name value).scopes.length = state.scopes.length :=
        Scopes.length_assign state.scopes name value
      simp only [Machine.resume, htarget, hset]
      exact mk _ (hheight ▸ hbelow)
  | sequence rest =>
      have hbelow := (Stacked.cons (by simp)).mp h
      cases rest with
      | nil => exact mk _ hbelow
      | cons first rest => exact of_cons _ (by simp) hbelow
  | branch thenBody elseBody =>
      have hbelow := (Stacked.cons (by simp)).mp h
      simp only [Machine.resume, Pending.task, Scoped.Machine.resume]
      split
      · exact mk _ hbelow
      · cases elseBody <;> exact mk _ hbelow
  | test condition body =>
      have hbelow := (Stacked.cons (by simp)).mp h
      simp only [Machine.resume, Pending.task, Scoped.Machine.resume]
      split
      · exact of_cons _ (by simp) hbelow
      · exact mk _ hbelow
  | argument function bound parameter rest =>
      exact call ((Stacked.cons (by simp)).mp h) function (bound.insert parameter value) rest
  | leave caller => exact leave _ h
  | print =>
      have hbelow : Stacked pending (state.print value).scopes.length :=
        (Stacked.cons (by simp)).mp h
      exact mk _ hbelow
  | apply => exact mk _ ((Stacked.cons (by simp)).mp h)
  | rightOperand | again => exact of_cons _ (by simp) ((Stacked.cons (by simp)).mp h)

/-- A fault leaves the calls it passes by. -/
theorem unwind {task : Pending} (h : Stacked (task :: pending) state.scopes.length)
    (fault : RunFault) :
    Mirrors ⟨.outcome (.error fault), pending, Machine.unwind task state.session⟩
      (Scoped.Machine.step
        ⟨.outcome (.error fault), task.task :: pending.map Pending.task, state⟩) := by
  cases task with
  | leave caller => exact leave _ h
  | _ => exact mk _ ((Stacked.cons (by simp)).mp h)

variable {machine : Machine} {reference : Scoped.Machine}

/-- One step. -/
theorem step (h : Mirrors machine reference) : Mirrors machine.step reference.step := by
  obtain ⟨focus, hstacked⟩ := h
  rename_i pending state
  cases focus with
  | evaluate expr => exact descend hstacked expr
  | stuck => exact mk .stuck hstacked
  | outcome result =>
      cases pending with
      | nil => cases result <;> exact mk _ hstacked
      | cons task pending =>
          cases result with
          | ok value => exact resume hstacked value
          | error fault => exact unwind hstacked fault

theorem afterSteps (h : Mirrors machine reference) (steps : Nat) :
    Mirrors (Machine.afterSteps steps machine) (Scoped.Machine.afterSteps steps reference) := by
  induction steps generalizing machine reference with
  | zero => exact h
  | succ steps ih => exact ih h.step

theorem view_eq (h : Mirrors machine reference) : machine.view = reference := by
  obtain ⟨focus, hstacked⟩ := h
  rw [Machine.view, State.view_session (List.length_pos_iff.mp hstacked.pos)]

/-- There is no frame that could not be seen. -/
theorem bindings_eq (h : Mirrors machine reference) :
    machine.session.environment.frames.toList.map Frame.bindings =
      reference.state.scopes.reverse := by
  obtain ⟨focus, hstacked⟩ := h
  exact Environment.bindings_ofScopes (List.length_pos_iff.mp hstacked.pos)

end Mirrors

end Machine

/-! ## Sessions -/

namespace Session

open Scoped (State)

/-- Both computations come to their end in the same way, or neither does. -/
inductive Alike {α : Type} : Option (α × Session) → Option (α × State) → Prop where
  | none : Alike none none
  | some (outcome : α) {after : State} (h : after.scopes ≠ []) :
      Alike (some (outcome, after.session)) (some (outcome, after))

/-- A whole run. -/
theorem alike_run {machine : Machine} {reference : Scoped.Machine}
    (h : Machine.Mirrors machine reference) (fuel : Nat) :
    Alike (machine.run fuel) (reference.run fuel) := by
  induction fuel generalizing machine reference with
  | zero => exact .none
  | succ fuel ih =>
      have hstep := ih h.step
      obtain ⟨focus, hstacked⟩ := h
      rename_i pending state
      cases focus with
      | evaluate expr => exact hstep
      | stuck =>
          have hnone : Machine.run fuel ⟨.stuck, pending, state.session⟩ = none := by
            cases fuel <;> rfl
          rw [Machine.step, hnone] at hstep
          exact hstep
      | outcome result =>
          cases pending with
          | nil => exact .some result (List.length_pos_iff.mp hstacked)
          | cons task pending => exact hstep

/-- Computations that are alike from every list of scopes. -/
def Agree {α : Type} (run : StateT Session Option α) (reference : StateT State Option α) : Prop :=
  ∀ ⦃state : State⦄, state.scopes ≠ [] → Alike (run state.session) (reference state)

namespace Agree

variable {α β : Type}

theorem andThen {run : StateT Session Option α} {reference : StateT State Option α}
    {next : α → StateT Session Option β} {next' : α → StateT State Option β}
    (hfirst : Agree run reference) (hnext : ∀ value, Agree (next value) (next' value)) :
    Agree (run >>= next) (reference >>= next') := by
  intro state hne
  have halike := hfirst hne
  simp only [Bind.bind, StateT.bind]
  generalize run state.session = ended at halike
  generalize reference state = ended' at halike
  cases halike with
  | none => exact .none
  | some outcome hafter => exact hnext outcome hafter

theorem pure (value : α) :
    Agree (Pure.pure value : StateT Session Option α) (Pure.pure value : StateT State Option α) :=
  fun _ hne => .some value hne

/-- A fault of the first computation is the outcome of both. -/
theorem bind {run : Run α} {reference : Scoped.Run α} {next : α → Run β}
    {next' : α → Scoped.Run β} (hfirst : Agree run.run reference.run)
    (hnext : ∀ value, Agree (next value).run (next' value).run) :
    Agree (run >>= next).run (reference >>= next').run :=
  hfirst.andThen fun outcome => by
    cases outcome with
    | ok value => exact hnext value
    | error fault => exact pure (Except.error fault)

theorem modify {change : Session → Session} {change' : State → State}
    (h : ∀ state : State, state.scopes ≠ [] →
      (change' state).scopes ≠ [] ∧ change state.session = (change' state).session) :
    Agree (modify change : Run Unit).run (modify change' : Scoped.Run Unit).run := by
  intro state hne
  obtain ⟨hne', hchange⟩ := h state hne
  show Alike (some (Except.ok (), change state.session)) (some (Except.ok (), change' state))
  rw [hchange]
  exact .some _ hne'

theorem evaluate (fuel : Nat) (expr : Expr) :
    Agree (Session.evaluate fuel expr) (Scoped.evaluate fuel expr) :=
  fun _ hne => alike_run (.start (.evaluate expr) hne) fuel

theorem define (fuel : Nat) (definition : Definition) :
    Agree (Session.define fuel definition).run (Scoped.define fuel definition).run := by
  cases definition with
  | function f => exact modify fun state hne => ⟨hne, rfl⟩
  | global name value =>
      refine (evaluate fuel value).bind fun number => modify fun state hne => ⟨?_, ?_⟩
      · exact Scopes.ne_nil_of_length_eq (Scopes.length_bindGlobal state.scopes name number) hne
      · rw [Session.defineGlobal, State.session, Environment.defineGlobal_ofScopes hne]
        rfl

theorem register (fuel : Nat) (program : Program) :
    Agree (Session.register fuel program).run (Scoped.register fuel program).run := by
  induction program with
  | nil => exact pure (Except.ok ())
  | cons definition rest ih => exact (define fuel definition).bind fun _ => ih

theorem runProgram (fuel : Nat) (program : Program) :
    Agree (Session.runProgram fuel program).run (Scoped.runProgram fuel program).run := by
  refine (register fuel program).bind fun _ state hne => ?_
  show Alike ((liftM (Session.entryPoint state.session) >>= fun main =>
    Session.evaluate fuel main.body : Run Int64) state.session) _
  -- The reference finds `main` by a case distinction of its own.
  conv => arg 2; whnf
  rw [Session.entryPoint, State.session]
  cases state.functions.get? "main" with
  | none => exact .some (Except.error RunFault.missingEntryPoint) hne
  | some main =>
      dsimp only
      by_cases harity : main.arity = 0
      · rw [if_pos harity, if_pos harity]
        exact evaluate fuel main.body hne
      · rw [if_neg harity, if_neg harity]
        exact .some (Except.error RunFault.missingEntryPoint) hne

end Agree

/-! ## Operations -/

/-- The value of an operation.  Taking in definitions has none. -/
def Operation.run (fuel : Nat) : Operation → Run (Option Int64)
  | register program => do
    Session.register fuel program
    return none
  | runProgram program => do
    let value ← Session.runProgram fuel program
    return some value
  | evaluate expr => do
    let value ← Session.evaluate fuel expr
    return some value

/-- The outcomes of operations that are performed in order, whether they succeed or fail. -/
def performAll (fuel : Nat) :
    List Operation → StateT Session Option (List (Except RunFault (Option Int64)))
  | [] => return []
  | operation :: rest => do
    let outcome ← (operation.run fuel).run
    let outcomes ← performAll fuel rest
    return outcome :: outcomes

theorem agree_operation (fuel : Nat) (operation : Operation) :
    Agree (operation.run fuel).run (Scoped.perform fuel operation).run := by
  cases operation with
  | register program => exact (Agree.register fuel program).bind fun _ => .pure (Except.ok none)
  | runProgram program =>
      exact (Agree.runProgram fuel program).bind fun value => .pure (Except.ok (some value))
  | evaluate expr =>
      exact (Agree.evaluate fuel expr).bind fun value => .pure (Except.ok (some value))

theorem agree_performAll (fuel : Nat) (operations : List Operation) :
    Agree (performAll fuel operations) (Scoped.performAll fuel operations) := by
  induction operations with
  | nil => exact .pure []
  | cons operation rest ih =>
      exact (agree_operation fuel operation).andThen fun outcome =>
        ih.andThen fun outcomes => .pure (outcome :: outcomes)

end Session

/-- Operations on a new session have the same outcomes as over a list of scopes, print the same, and
leave the same scopes.  At every step of an evaluation in the session that they leave, the frames
from the current one along the parents are the list of scopes, and they are all frames there are. -/
theorem frames_implement_dynamic_scoping (callLimit : Nat) (output : Output) (fuel : Nat)
    (operations : List Session.Operation) :
    (Session.performAll fuel operations (.initial callLimit output)).map
        (fun ended => (ended.1, ended.2.view)) =
      Scoped.performAll fuel operations (.initial callLimit output) ∧
    ∀ (outcomes : List (Except RunFault (Option Int64))) (session : Session),
      Session.performAll fuel operations (.initial callLimit output) = some (outcomes, session) →
      ∀ (expr : Expr) (steps : Nat) (machine : Machine),
        Machine.afterSteps steps ⟨.evaluate expr, [], session⟩ = machine →
        machine.view = Scoped.Machine.afterSteps steps ⟨.evaluate expr, [], session.view⟩ ∧
        machine.session.environment.scopes =
          (machine.session.environment.frames.toList.map Frame.bindings).reverse := by
  have hne : (Scoped.State.initial callLimit output).scopes ≠ [] := nofun
  have halike := Session.agree_performAll fuel operations hne
  have hinitial : (Scoped.State.initial callLimit output).session =
    Session.initial callLimit output := rfl
  rw [hinitial] at halike
  generalize Session.performAll fuel operations (.initial callLimit output) = ended at halike
  generalize Scoped.performAll fuel operations (.initial callLimit output) = ended' at halike
  cases halike with
  | none => exact ⟨rfl, nofun⟩
  | @some outcomes after hafter =>
      have hview := Scoped.State.view_session hafter
      refine ⟨congrArg (fun state => some (outcomes, state)) hview, ?_⟩
      rintro _ _ ⟨⟩ expr steps machine rfl
      have hmirrors := (Machine.Mirrors.start (.evaluate expr) hafter).afterSteps steps
      have hscopes := congrArg (·.state.scopes) hmirrors.view_eq
      refine ⟨by rw [hview, hmirrors.view_eq], ?_⟩
      rw [hmirrors.bindings_eq, List.reverse_reverse]
      exact hscopes

/-- A function that sets the parameter of its caller, and the scopes while it is at it. -/
theorem frames_implement_dynamic_scoping_nested_call : ∃ session machine,
    Session.performAll 1 [.register [
        .function ⟨"f", ["x"], .block [.call "g" [], .symbol "x"]⟩,
        .function ⟨"g", [], .block [.assign "x" (.binary .add (.symbol "x") (.number 1))]⟩]]
      (.initial 2 .silent) = some ([.ok none], session) ∧
    Machine.afterSteps 13 ⟨.evaluate (.call "f" [.number 4]), [], session⟩ = machine ∧
    machine.view.state.scopes = [.empty, ⟨[("x", 5)]⟩, .empty] ∧
    machine.session.environment.scopes =
      (machine.session.environment.frames.toList.map Frame.bindings).reverse := by
  obtain ⟨session, hsession, hscopes⟩ : ∃ session,
      Session.performAll 1 [.register [
          .function ⟨"f", ["x"], .block [.call "g" [], .symbol "x"]⟩,
          .function ⟨"g", [], .block [.assign "x" (.binary .add (.symbol "x") (.number 1))]⟩]]
        (.initial 2 .silent) = some ([.ok none], session) ∧
      (Scoped.Machine.afterSteps 13
        ⟨.evaluate (.call "f" [.number 4]), [], session.view⟩).state.scopes =
          [.empty, ⟨[("x", 5)]⟩, .empty] :=
    ⟨_, rfl, rfl⟩
  obtain ⟨hview, hall⟩ := (frames_implement_dynamic_scoping 2 .silent 1 _).2 _ session hsession
    (.call "f" [.number 4]) 13 _ rfl
  exact ⟨session, _, hsession, rfl, by rw [hview, hscopes], hall⟩

end IntScript
