import IntScript.Proofs.Evaluation.CallLimit
import IntScript.Proofs.Evaluation.DynamicScoping

/-!
# The sessions that occur

The sessions in which something may be evaluated: new ones, those that operations leave, and those
in the middle of an evaluation, where calls are in progress.  In all of them the frames are a stack:
the global frame is the first, every other one has been entered from the one before it, and the last
one is current.  In other words, they are the environments of lists of scopes.

* `Session.Occurs.exists_state` : a session that occurs is that of a list of scopes.
* `Session.Occurs.wellFormed` : no search in it goes astray.
-/

namespace IntScript

open Scoped (State)

namespace Session

/-- The session is a new one or has come about from one that occurs: by an operation, by a change of
the limit on calls, or at some step of an evaluation. -/
inductive Occurs : Session → Prop where
  | initial (callLimit : Nat) (output : Output) : Occurs (.initial callLimit output)
  | perform {session after : Session} (operation : Operation) (fuel : Nat)
      (hsession : Occurs session) (hperform : operation.perform fuel session = some after) :
      Occurs after
  | withLimit {session : Session} (limit : Nat) (hsession : Occurs session) :
      Occurs (session.withLimit limit)
  | during {session : Session} (expr : Expr) (steps : Nat) (hsession : Occurs session) :
      Occurs (Machine.afterSteps steps ⟨.evaluate expr, [], session⟩).session

theorem Reachable.occurs {callLimit : Nat} {output : Output} {session : Session}
    (h : Reachable callLimit output session) : session.Occurs := by
  induction h with
  | initial => exact .initial callLimit output
  | perform operation fuel _ hperform ih => exact .perform operation fuel ih hperform

/-- A computation that agrees with one on lists of scopes leaves a list of scopes. -/
theorem Agree.exists_state {α : Type} {run : StateT Session Option α}
    {reference : StateT State Option α} (h : Agree run reference) {state : State}
    (hne : state.scopes ≠ []) {outcome : α} {after : Session}
    (hrun : run state.session = some (outcome, after)) :
    ∃ next : State, next.scopes ≠ [] ∧ after = next.session := by
  have halike := h hne
  rw [hrun] at halike
  generalize reference state = ended at halike
  cases halike with
  | some _ hnext => exact ⟨_, hnext, rfl⟩

theorem exists_state_of_perform {operation : Operation} {fuel : Nat} {state : State}
    {after : Session} (hne : state.scopes ≠ [])
    (h : operation.perform fuel state.session = some after) :
    ∃ next : State, next.scopes ≠ [] ∧ after = next.session := by
  cases operation with
  | register program =>
      obtain ⟨⟨result, _⟩, hrun, rfl⟩ := Option.map_eq_some_iff.mp h
      exact (Agree.register fuel program).exists_state hne hrun
  | runProgram program =>
      obtain ⟨⟨result, _⟩, hrun, rfl⟩ := Option.map_eq_some_iff.mp h
      exact (Agree.runProgram fuel program).exists_state hne hrun
  | evaluate expr =>
      obtain ⟨⟨result, _⟩, hrun, rfl⟩ := Option.map_eq_some_iff.mp h
      exact (Agree.evaluate fuel expr).exists_state hne hrun

namespace Occurs

variable {session : Session}

/-- The frames are those of a list of scopes. -/
theorem exists_state (h : session.Occurs) :
    ∃ state : State, state.scopes ≠ [] ∧ session = state.session := by
  induction h with
  | initial callLimit output =>
      exact ⟨.initial callLimit output, List.cons_ne_nil _ _, rfl⟩
  | perform operation fuel _ hperform ih =>
      obtain ⟨state, hne, rfl⟩ := ih
      exact exists_state_of_perform hne hperform
  | withLimit limit _ ih =>
      obtain ⟨state, hne, rfl⟩ := ih
      exact ⟨{ state with callLimit := limit }, hne, rfl⟩
  | during expr steps _ ih =>
      obtain ⟨state, hne, rfl⟩ := ih
      have hmirrors := (Machine.Mirrors.start (.evaluate expr) hne).afterSteps steps
      generalize Machine.afterSteps steps _ = machine at hmirrors ⊢
      generalize Scoped.Machine.afterSteps steps _ = reference at hmirrors
      cases hmirrors with
      | mk focus hstacked => exact ⟨_, List.length_pos_iff.mp hstacked.pos, rfl⟩

theorem wellFormed (h : session.Occurs) : session.environment.WellFormed := by
  obtain ⟨state, hne, rfl⟩ := h.exists_state
  exact Environment.wellFormed_ofScopes hne

end Occurs

end Session

end IntScript
