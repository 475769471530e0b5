import IntScript.Proofs.Evaluation.Names

/-!
# Calls in place

A function without parameters can be called, or its body can be evaluated where the call would be.
The call has a scope of its own in front of the current one.  Evaluated in place, the body binds its
new names in the current scope instead, so that there is one scope where the call has two.  Either
way a name is found in the same place as seen from the other scopes: what the scope of the call
binds is bound in no scope around it, because an assignment would have found it there.

* `Scopes.Splits` : the scopes of the two evaluations, with those of further calls in front of them.
  Looking names up (`Scopes.Splits.lookup_eq`) and assignments (`Scopes.Splits.assign`) respect it.
* `Scoped.Machine.OneDeeper.step` : the two evaluations in step.  In one of them a call more is in
  progress, which it may, since its limit is higher by one.
* `call_agrees_with_body` : the main result.
-/

namespace IntScript

open Scoped (State Task)

namespace Scopes

variable {name other : String} {value : Int64} {scope : Table Int64} {scopes outer updated : Scopes}

/-! ## Names in scopes -/

theorem lookup_eq_none_cons_iff :
    lookup name (scope :: outer) = none ↔ scope.get? name = none ∧ lookup name outer = none := by
  rw [lookup]
  cases scope.get? name <;> simp

theorem get?_eq_none_of_not_contains (h : ¬ scope.contains name = true) :
    scope.get? name = none :=
  Option.not_isSome_iff_eq_none.mp h

/-- An assignment finds the names that have a value. -/
theorem update?_eq_none_iff : update? name value scopes = none ↔ lookup name scopes = none := by
  induction scopes with
  | nil => exact Iff.intro (fun _ => rfl) (fun _ => rfl)
  | cons scope outer ih =>
      rw [update?, lookup_eq_none_cons_iff, ← ih]
      by_cases hbound : scope.contains name = true
      · have hsome : scope.get? name ≠ none := Option.isSome_iff_ne_none.mp hbound
        simp [hbound, hsome]
      · simp [hbound, get?_eq_none_of_not_contains hbound]

/-- An assignment that finds the name changes the value of no other. -/
theorem lookup_of_update? (h : update? name value scopes = some updated) :
    lookup other updated = if other = name then some value else lookup other scopes := by
  induction scopes generalizing updated with
  | nil => cases h
  | cons scope outer ih =>
      rw [update?] at h
      split at h
      next =>
        cases h
        rw [lookup, lookup, Table.get?_insert]
        by_cases hother : other = name
        · rw [if_pos hother, if_pos hother]
        · rw [if_neg hother, if_neg hother]
      next hbound =>
        obtain ⟨rest, hrest, rfl⟩ := Option.map_eq_some_iff.mp h
        rw [lookup, lookup, ih hrest]
        by_cases hother : other = name
        · rw [if_pos hother, if_pos hother, hother, get?_eq_none_of_not_contains hbound]
        · rw [if_neg hother, if_neg hother]

/-! ## One scope for two -/

/-- The first list of scopes has one scope where the second has two, with `calls` scopes in front
that are the same.  Of the two, the first binds only names that are bound nowhere behind it. -/
inductive Splits : (calls : Nat) → (direct called : Scopes) → Prop where
  | here {merged own kept : Table Int64} {outer : Scopes}
      (hmerged : ∀ name, merged.get? name = (own.get? name).or (kept.get? name))
      (hown : ∀ name, own.contains name = true → lookup name (kept :: outer) = none) :
      Splits 0 (merged :: outer) (own :: kept :: outer)
  | behind {calls : Nat} {direct called : Scopes} (scope : Table Int64)
      (h : Splits calls direct called) : Splits (calls + 1) (scope :: direct) (scope :: called)

namespace Splits

variable {calls : Nat} {direct called : Scopes} {merged own kept : Table Int64}

/-- A new scope binds no names at all. -/
theorem enter (hne : scopes ≠ []) : Splits 0 scopes (.empty :: scopes) := by
  obtain ⟨kept, outer, rfl⟩ := List.exists_cons_of_ne_nil hne
  exact .here (fun _ => rfl) nofun

theorem length_eq (h : Splits calls direct called) : called.length = direct.length + 1 := by
  induction h with
  | here => rfl
  | behind scope _ ih => rw [List.length_cons, List.length_cons, ih]

/-- A name has the same value in both. -/
theorem lookup_eq (h : Splits calls direct called) (name : String) :
    lookup name called = lookup name direct := by
  induction h with
  | @here merged own kept outer hmerged hown =>
      rw [lookup, lookup, lookup, hmerged]
      cases own.get? name <;> rfl
  | behind scope _ ih => rw [lookup, lookup, ih]

section

variable (hmerged : ∀ name, merged.get? name = (own.get? name).or (kept.get? name))
  (hown : ∀ name, own.contains name = true → lookup name (kept :: outer) = none)

include hmerged hown

/-- The name belongs to the call, and is bound in no scope behind it. -/
theorem insert_own (hnone : lookup name (kept :: outer) = none) (value : Int64) :
    Splits 0 (merged.insert name value :: outer) (own.insert name value :: kept :: outer) := by
  refine .here (fun other => ?_) (fun other hother => ?_)
  · rw [Table.get?_insert, Table.get?_insert, hmerged]
    by_cases heq : other = name
    · rw [if_pos heq, if_pos heq, Option.some_or]
    · rw [if_neg heq, if_neg heq]
  · by_cases heq : other = name
    · rw [heq]
      exact hnone
    · rw [Table.contains, Table.get?_insert, if_neg heq] at hother
      exact hown other hother

/-- The name belongs to the scope that the call was made in. -/
theorem insert_kept (hnot : ¬ own.contains name = true) (value : Int64) :
    Splits 0 (merged.insert name value :: outer) (own :: kept.insert name value :: outer) := by
  refine .here (fun other => ?_) (fun other hother => ?_)
  · rw [Table.get?_insert, Table.get?_insert, hmerged]
    by_cases heq : other = name
    · rw [if_pos heq, if_pos heq, heq, get?_eq_none_of_not_contains hnot, Option.none_or]
    · rw [if_neg heq, if_neg heq]
  · have hne : other ≠ name := fun heq => hnot (heq ▸ hother)
    have hnone := lookup_eq_none_cons_iff.mp (hown other hother)
    rw [lookup_eq_none_cons_iff, Table.get?_insert, if_neg hne]
    exact hnone

/-- The name belongs to a scope around both. -/
theorem update_outer (hnot : ¬ own.contains name = true) {rest : Scopes}
    (hrest : update? name value outer = some rest) :
    Splits 0 (merged :: rest) (own :: kept :: rest) := by
  refine .here hmerged fun other hother => ?_
  have hne : other ≠ name := fun heq => hnot (heq ▸ hother)
  have hnone := lookup_eq_none_cons_iff.mp (hown other hother)
  rw [lookup_eq_none_cons_iff, lookup_of_update? hrest, if_neg hne]
  exact hnone

end

/-- An assignment that finds the name in the first finds it in the second. -/
theorem exists_updated (h : Splits calls direct called)
    (hupdate : update? name value direct = some updated) :
    ∃ updated', update? name value called = some updated' ∧ Splits calls updated updated' := by
  induction h generalizing updated with
  | @here merged own kept outer hmerged hown =>
      rw [update?, Table.contains, hmerged] at hupdate
      rw [update?, update?]
      by_cases hbound : own.contains name = true
      · obtain ⟨old, hold⟩ := Option.isSome_iff_exists.mp hbound
        rw [hold, Option.some_or, Option.isSome_some, if_pos rfl] at hupdate
        cases hupdate
        rw [if_pos hbound]
        exact ⟨_, rfl, insert_own hmerged hown (hown name hbound) value⟩
      · rw [get?_eq_none_of_not_contains hbound, Option.none_or, ← Table.contains] at hupdate
        rw [if_neg hbound]
        by_cases hkept : kept.contains name = true
        · rw [if_pos hkept] at hupdate ⊢
          cases hupdate
          exact ⟨_, rfl, insert_kept hmerged hown hbound value⟩
        · rw [if_neg hkept] at hupdate ⊢
          obtain ⟨rest, hrest, rfl⟩ := Option.map_eq_some_iff.mp hupdate
          rw [hrest]
          exact ⟨_, rfl, update_outer hmerged hown hbound hrest⟩
  | @behind calls direct called scope h ih =>
      rw [update?] at hupdate ⊢
      by_cases hbound : scope.contains name = true
      · rw [if_pos hbound] at hupdate ⊢
        cases hupdate
        exact ⟨_, rfl, .behind _ h⟩
      · rw [if_neg hbound] at hupdate ⊢
        obtain ⟨rest, hrest, rfl⟩ := Option.map_eq_some_iff.mp hupdate
        obtain ⟨rest', hrest', hsplits⟩ := ih hrest
        rw [hrest']
        exact ⟨_, rfl, .behind scope hsplits⟩

/-- A name that is found in neither is bound in the innermost scopes. -/
theorem bindInnermost (h : Splits calls direct called) (hnone : lookup name called = none)
    (value : Int64) :
    Splits calls (bindInnermost name value direct) (bindInnermost name value called) := by
  cases h with
  | here hmerged hown =>
      exact insert_own hmerged hown (lookup_eq_none_cons_iff.mp hnone).2 value
  | behind scope h => exact .behind _ h

theorem assign (h : Splits calls direct called) (name : String) (value : Int64) :
    Splits calls (Scopes.assign name value direct) (Scopes.assign name value called) := by
  rw [Scopes.assign, Scopes.assign]
  cases hupdate : update? name value direct with
  | some updated =>
      obtain ⟨updated', hupdate', hsplits⟩ := h.exists_updated hupdate
      rw [hupdate', Option.getD_some, Option.getD_some]
      exact hsplits
  | none =>
      have hnone : lookup name called = none := by
        rw [h.lookup_eq]
        exact update?_eq_none_iff.mp hupdate
      rw [update?_eq_none_iff.mpr hnone, Option.getD_none, Option.getD_none]
      exact h.bindInnermost hnone value

end Splits

end Scopes

/-! ## Evaluations in step -/

/-- The outcomes are the same, but that a call beyond the limit is refused with one limit in the
first and with the next in the second. -/
inductive AlikeBelow (limit : Nat) : (direct called : Except RunFault Int64) → Prop where
  | same (result : Except RunFault Int64) : AlikeBelow limit result result
  | exhausted : AlikeBelow limit (.error (.stackExhausted limit))
      (.error (.stackExhausted (limit + 1)))

namespace Scoped

/-- The state with another limit on calls. -/
def State.withLimit (state : State) (limit : Nat) : State :=
  { state with callLimit := limit }

/-- The number of calls that are pending. -/
def callsIn : List Task → Nat
  | [] => 0
  | .leave :: tasks => callsIn tasks + 1
  | _ :: tasks => callsIn tasks

/-- The second state has two scopes where the first has one, and its limit on calls is higher by
one. -/
structure State.OneDeeper (limit calls : Nat) (direct called : State) : Prop where
  splits : Scopes.Splits calls direct.scopes called.scopes
  functions_eq : called.functions = direct.functions
  direct_limit : direct.callLimit = limit
  called_limit : called.callLimit = limit + 1
  output_eq : called.output = direct.output

/-- What the two evaluations are about to do. -/
inductive AlikeFocus (limit : Nat) : (direct called : Focus) → Prop where
  | evaluate (expr : Expr) : AlikeFocus limit (.evaluate expr) (.evaluate expr)
  | outcome {result result' : Except RunFault Int64} (h : AlikeBelow limit result result') :
      AlikeFocus limit (.outcome result) (.outcome result')
  | stuck : AlikeFocus limit .stuck .stuck

namespace Machine

/-- In the second evaluation, a call more is in progress, which was entered before all others. -/
inductive OneDeeper (limit : Nat) : (direct called : Machine) → Prop where
  | mk {focus focus' : Focus} {tasks : List Task} {direct called : State}
      (hfocus : AlikeFocus limit focus focus')
      (hstate : State.OneDeeper limit (callsIn tasks) direct called) :
      OneDeeper limit ⟨focus, tasks, direct⟩ ⟨focus', tasks ++ [.leave], called⟩

namespace OneDeeper

variable {limit : Nat} {tasks : List Task} {direct called : State}

theorem outcome (result : Except RunFault Int64)
    (hstate : State.OneDeeper limit (callsIn tasks) direct called) :
    OneDeeper limit ⟨.outcome result, tasks, direct⟩
      ⟨.outcome result, tasks ++ [.leave], called⟩ :=
  .mk (.outcome (.same result)) hstate

theorem evaluate (expr : Expr) (hstate : State.OneDeeper limit (callsIn tasks) direct called) :
    OneDeeper limit ⟨.evaluate expr, tasks, direct⟩
      ⟨.evaluate expr, tasks ++ [.leave], called⟩ :=
  .mk (.evaluate expr) hstate

theorem push (task : Task) (expr : Expr)
    (hstate : State.OneDeeper limit (callsIn (task :: tasks)) direct called) :
    OneDeeper limit ⟨.evaluate expr, task :: tasks, direct⟩
      ⟨.evaluate expr, task :: (tasks ++ [.leave]), called⟩ :=
  evaluate expr hstate

theorem call (hstate : State.OneDeeper limit (callsIn tasks) direct called) (function : Function)
    (bound : Table Int64) (arguments : Arguments) :
    OneDeeper limit (Machine.call function bound arguments tasks direct)
      (Machine.call function bound arguments (tasks ++ [.leave]) called) := by
  unfold Machine.call
  split
  next parameter argument rest =>
    exact push (.argument function bound parameter rest) argument hstate
  next =>
    have hlength := hstate.splits.length_eq
    rw [hstate.direct_limit, hstate.called_limit, hlength]
    by_cases hfull : limit < direct.scopes.length
    · rw [if_pos hfull, if_pos (Nat.succ_lt_succ hfull)]
      exact .mk (.outcome .exhausted) hstate
    · rw [if_neg hfull, if_neg fun h => hfull (Nat.lt_of_succ_lt_succ h)]
      have hentered : State.OneDeeper limit (callsIn (.leave :: tasks)) (direct.enter bound)
          (called.enter bound) :=
        ⟨.behind bound hstate.splits, hstate.functions_eq, hstate.direct_limit,
          hstate.called_limit, hstate.output_eq⟩
      exact push .leave function.body hentered

theorem descend (hstate : State.OneDeeper limit (callsIn tasks) direct called) (expr : Expr) :
    OneDeeper limit (Machine.descend expr tasks direct)
      (Machine.descend expr (tasks ++ [.leave]) called) := by
  cases expr with
  | number value => exact outcome _ hstate
  | symbol name =>
      simp only [Machine.descend, hstate.splits.lookup_eq]
      cases direct.scopes.lookup name <;> exact outcome _ hstate
  | assign name value => exact push (.assign name) value hstate
  | binary op left right => exact push (.rightOperand op right) left hstate
  | block body =>
      cases body with
      | nil => exact outcome _ hstate
      | cons first rest => exact push (.sequence rest) first hstate
  | ifThen condition thenBody =>
      exact push (.branch thenBody none) condition hstate
  | ifElse condition thenBody elseBody =>
      exact push (.branch thenBody (some elseBody)) condition hstate
  | loop condition body => exact push (.test condition body) condition hstate
  | call callee arguments =>
      have hresolve : called.resolve callee arguments = direct.resolve callee arguments := by
        rw [State.resolve, State.resolve, hstate.functions_eq]
      simp only [Machine.descend, hresolve]
      cases direct.resolve callee arguments with
      | error fault => exact outcome _ hstate
      | ok resolved => exact call hstate resolved.1 .empty resolved.2
  | labelledCall callee arguments =>
      have hresolve : called.resolveLabelled callee arguments =
          direct.resolveLabelled callee arguments := by
        rw [State.resolveLabelled, State.resolveLabelled, hstate.functions_eq]
      simp only [Machine.descend, hresolve]
      cases direct.resolveLabelled callee arguments with
      | error fault => exact outcome _ hstate
      | ok resolved => exact call hstate resolved.1 .empty resolved.2
  | println argument => exact push .print argument hstate

/-- A call other than the one that is evaluated in place drops the same scope in both. -/
theorem leave {calls : Nat} (hstate : State.OneDeeper limit (calls + 1) direct called) :
    State.OneDeeper limit calls direct.leave called.leave := by
  refine ⟨?_, hstate.functions_eq, hstate.direct_limit, hstate.called_limit, hstate.output_eq⟩
  have hsplits := hstate.splits
  rw [State.leave, State.leave]
  generalize direct.scopes = scopes at hsplits ⊢
  generalize called.scopes = scopes' at hsplits ⊢
  cases hsplits with
  | behind scope hbehind => exact hbehind

theorem resume {task : Task}
    (hstate : State.OneDeeper limit (callsIn (task :: tasks)) direct called) (value : Int64) :
    OneDeeper limit (Machine.resume value task tasks direct)
      (Machine.resume value task (tasks ++ [.leave]) called) := by
  cases task with
  | assign name =>
      exact outcome _ ⟨hstate.splits.assign name value, hstate.functions_eq, hstate.direct_limit,
        hstate.called_limit, hstate.output_eq⟩
  | rightOperand op right => exact push (.apply op value) right hstate
  | apply op left => exact outcome _ hstate
  | sequence rest =>
      cases rest with
      | nil => exact outcome _ hstate
      | cons first rest => exact push (.sequence rest) first hstate
  | branch thenBody elseBody =>
      simp only [Machine.resume]
      split
      · exact evaluate thenBody hstate
      · cases elseBody with
        | none => exact outcome _ hstate
        | some elseBody => exact evaluate elseBody hstate
  | test condition body =>
      simp only [Machine.resume]
      split
      · exact push (.again condition body) body hstate
      · exact outcome _ hstate
  | again condition body =>
      exact push (.test condition body) condition hstate
  | argument function bound parameter rest =>
      have hbelow : State.OneDeeper limit (callsIn tasks) direct called := hstate
      exact call hbelow function (bound.insert parameter value) rest
  | leave => exact outcome _ (leave hstate)
  | print =>
      refine outcome _ ⟨hstate.splits, hstate.functions_eq, hstate.direct_limit,
        hstate.called_limit, ?_⟩
      rw [State.print, State.print, hstate.output_eq]

/-- One step, up to where the first evaluation is over. -/
theorem step {focus focus' : Focus} {tasks : List Task}
    (hfocus : AlikeFocus limit focus focus')
    (hstate : State.OneDeeper limit (callsIn tasks) direct called)
    (hgoes : ∀ result, focus = .outcome result → tasks ≠ []) :
    OneDeeper limit (Machine.step ⟨focus, tasks, direct⟩)
      (Machine.step ⟨focus', tasks ++ [.leave], called⟩) := by
  cases hfocus with
  | evaluate expr => exact descend hstate expr
  | stuck => exact .mk .stuck hstate
  | outcome hresult =>
      cases tasks with
      | nil => exact absurd rfl (hgoes _ rfl)
      | cons task tasks =>
          cases hresult with
          | exhausted =>
              cases task with
              | leave => exact .mk (.outcome .exhausted) (leave hstate)
              | _ => exact .mk (.outcome .exhausted) hstate
          | same =>
              rename_i result
              cases result with
              | ok value => exact resume hstate value
              | error fault =>
                  cases task with
                  | leave => exact outcome _ (leave hstate)
                  | _ => exact outcome _ hstate

end OneDeeper

/-- What the two evaluations come to, if they come to an end. -/
inductive EndAlike (limit : Nat) : (direct called : Option (Except RunFault Int64 × State)) → Prop
  where
  | none : EndAlike limit none none
  | some {result result' : Except RunFault Int64} {direct called : State}
      (hresult : AlikeBelow limit result result') (hstate : State.OneDeeper limit 0 direct called) :
      EndAlike limit (some (result, direct)) (some (result', called.leave))

theorem run_succ {machine : Machine} (fuel : Nat)
    (hgoes : ∀ result, machine.focus = .outcome result → machine.tasks ≠ []) :
    run (fuel + 1) machine = run fuel machine.step := by
  obtain ⟨focus, tasks, state⟩ := machine
  cases focus with
  | evaluate | stuck => rfl
  | outcome result =>
      cases tasks with
      | nil => exact absurd rfl (hgoes result rfl)
      | cons => rfl

/-- Once the body is evaluated, the call is left with its outcome. -/
theorem run_leave (fuel : Nat) (result : Except RunFault Int64) (state : State) :
    run (fuel + 2) ⟨.outcome result, [.leave], state⟩ = some (result, state.leave) := by
  cases result <;> rfl

/-- Whole runs.  The call takes a step more than the body, to leave it. -/
theorem OneDeeper.run {limit fuel : Nat} {direct called : Machine}
    (h : OneDeeper limit direct called) :
    EndAlike limit (direct.run fuel) (called.run (fuel + 1)) := by
  induction fuel generalizing direct called with
  | zero =>
      obtain ⟨hfocus, hstate⟩ := h
      rw [run_succ 0 fun _ _ => by simp]
      exact .none
  | succ fuel ih =>
      obtain ⟨hfocus, hstate⟩ := h
      rename_i focus focus' tasks direct called
      by_cases hgoes : ∀ result, focus = .outcome result → tasks ≠ []
      · rw [run_succ fuel hgoes, run_succ (fuel + 1) fun _ _ => by simp]
        exact ih (step hfocus hstate hgoes)
      · -- The body is evaluated.
        cases hfocus with
        | evaluate | stuck => exact absurd nofun hgoes
        | @outcome result result' hresult =>
            have hnil : tasks = [] := by
              cases tasks with
              | nil => rfl
              | cons => exact absurd (fun _ _ => List.cons_ne_nil _ _) hgoes
            subst hnil
            rw [List.nil_append, run_leave]
            exact .some hresult hstate

end Machine

end Scoped

namespace Scoped.Machine

/-- A call without arguments goes on with the body of its function, in a scope of its own. -/
theorem run_call {state : State} {name : String} {f : Function}
    (hfunction : state.functions.get? name = some f) (hparameters : f.parameters = [])
    (hroom : state.scopes.length ≤ state.callLimit) (fuel : Nat) :
    run (fuel + 1) ⟨.evaluate (.call name []), [], state⟩ =
      run fuel ⟨.evaluate f.body, [.leave], state.enter .empty⟩ := by
  have hresolve : state.resolve name [] = .ok (f, []) := by
    rw [State.resolve, hfunction]
    simp [Function.arity, hparameters]
  rw [run_succ fuel (by rintro _ ⟨⟩)]
  simp only [step, descend, hresolve, call, if_neg (Nat.not_lt.mpr hroom)]

/-- The body of a function without parameters, evaluated in place and called. -/
theorem endAlike_call {state : State} (hne : state.scopes ≠ []) {name : String} {f : Function}
    (hfunction : state.functions.get? name = some f) (hparameters : f.parameters = [])
    {limit : Nat} (hroom : state.scopes.length ≤ limit + 1) (fuel : Nat) :
    EndAlike limit (run fuel ⟨.evaluate f.body, [], state.withLimit limit⟩)
      (run (fuel + 2) ⟨.evaluate (.call name []), [], state.withLimit (limit + 1)⟩) := by
  have hcall := @run_call (state.withLimit (limit + 1)) name f hfunction hparameters hroom
  rw [hcall (fuel + 1)]
  have hstate : State.OneDeeper limit (callsIn []) (state.withLimit limit)
      ((state.withLimit (limit + 1)).enter .empty) :=
    ⟨.enter hne, rfl, rfl, rfl, rfl⟩
  exact (OneDeeper.evaluate f.body hstate).run

end Scoped.Machine

/-! ## Sessions -/

/-- The frame of the innermost scope is the last one. -/
theorem Environment.valueAt?_ofScopes_cons (scope : Table Int64) (outer : Scopes) (index : Nat)
    (name : String) : (ofScopes (scope :: outer)).valueAt? index name =
      if index = outer.length then scope.get? name else (ofScopes outer).valueAt? index name := by
  by_cases houter : outer = []
  · subst houter
    cases index <;> rfl
  · have hframe : (ofScopes (scope :: outer)).frames[index]? =
        if index = outer.length then some ⟨scope, some (ofScopes outer).current⟩
        else (ofScopes outer).frames[index]? := by
      rw [ofScopes_cons scope houter, push, Array.getElem?_push, size_ofScopes houter]
    rw [valueAt?, hframe]
    by_cases hindex : index = outer.length
    · rw [if_pos hindex, if_pos hindex, Option.bind_some]
    · rw [if_neg hindex, if_neg hindex, valueAt?]

/-- What is bound when the call is left has the same value in place, since the call does not bind it
itself. -/
theorem Scoped.State.OneDeeper.valueAt?_eq {limit index : Nat} {name : String}
    {direct called : State} (h : State.OneDeeper limit 0 direct called)
    (hbound : called.leave.session.environment.Binds index name) :
    direct.session.environment.valueAt? index name =
      called.leave.session.environment.valueAt? index name := by
  obtain ⟨scopes, functions, callLimit, output⟩ := direct
  obtain ⟨scopes', functions', callLimit', output'⟩ := called
  obtain ⟨hsplits, -⟩ := h
  cases hsplits with
  | @here merged own kept outer hmerged hown =>
      show (Environment.ofScopes (merged :: outer)).valueAt? index name =
        (Environment.ofScopes (kept :: outer)).valueAt? index name
      have hvalue : ((Environment.ofScopes (kept :: outer)).valueAt? index name).isSome = true :=
        hbound
      rw [Environment.valueAt?_ofScopes_cons] at hvalue ⊢
      rw [Environment.valueAt?_ofScopes_cons]
      by_cases hindex : index = outer.length
      · rw [if_pos hindex] at hvalue ⊢
        rw [if_pos hindex, hmerged]
        by_cases howned : own.contains name = true
        · have hnone := (Scopes.lookup_eq_none_cons_iff.mp (hown name howned)).1
          rw [hnone] at hvalue
          cases hvalue
        · rw [Scopes.get?_eq_none_of_not_contains howned, Option.none_or]
      · rw [if_neg hindex, if_neg hindex]

namespace Session

/-- What a session becomes when a body is evaluated in place and when it is called. -/
structure AgreeInPlace (before direct called : Session) : Prop where
  output_eq : called.output = direct.output
  functions_eq : called.functions = direct.functions
  sameShape : called.environment.SameShape direct.environment
  /-- Variables that there were before have the same values. -/
  value_eq : ∀ index name, before.environment.Binds index name → ∃ value,
    direct.environment.valueAt? index name = some value ∧
      called.environment.valueAt? index name = some value
  /-- In place, the body leaves new names in the current frame only. -/
  direct_new : ∀ index name, direct.environment.Binds index name →
    before.environment.Binds index name ∨ index = before.environment.current
  /-- The call leaves no new names. -/
  called_new : ∀ index name, called.environment.Binds index name →
    before.environment.Binds index name

/-- What the two evaluations come to, if they come to an end. -/
inductive EndAlike (limit : Nat) : (direct called : Option (Except RunFault Int64 × Session)) → Prop
  where
  | none : EndAlike limit none none
  | some {result result' : Except RunFault Int64} {direct called : State}
      (hresult : AlikeBelow limit result result') (hstate : State.OneDeeper limit 0 direct called) :
      EndAlike limit (some (result, direct.session)) (some (result', called.leave.session))

/-- Neither ends without the other. -/
theorem exists_iff_of_endAlike {limit : Nat}
    {first second : Option (Except RunFault Int64 × Session)} (h : EndAlike limit first second) :
    (∃ result direct, first = some (result, direct)) ↔
      ∃ result called, second = some (result, called) := by
  cases h with
  | none => exact Iff.intro nofun nofun
  | some => exact Iff.intro (fun _ => ⟨_, _, rfl⟩) (fun _ => ⟨_, _, rfl⟩)

section

variable {session direct called : Session} {name : String} {f : Function} {limit : Nat}
  (hfunction : session.functions.get? name = some f) (hparameters : f.parameters = [])

include hfunction hparameters

theorem endAlike_evaluate (hoccurs : session.Occurs) (hdepth : session.environment.depth ≤ limit)
    (fuel : Nat) :
    EndAlike limit (evaluate fuel f.body (session.withLimit limit))
      (evaluate (fuel + 2) (.call name []) (session.withLimit (limit + 1))) := by
  obtain ⟨state, hne, rfl⟩ := hoccurs.exists_state
  have hroom : state.scopes.length ≤ limit + 1 := by
    have hsize : state.session.environment.frames.size = state.scopes.length :=
      Environment.size_ofScopes hne
    rw [Environment.depth, hsize] at hdepth
    omega
  have hend : Scoped.Machine.EndAlike limit
      (Scoped.evaluate fuel f.body (state.withLimit limit))
      (Scoped.evaluate (fuel + 2) (.call name []) (state.withLimit (limit + 1))) :=
    Scoped.Machine.endAlike_call hne hfunction hparameters hroom fuel
  have hne' : ∀ limit, (state.withLimit limit).scopes ≠ [] := fun _ => hne
  have hdirect : Alike (evaluate fuel f.body (state.session.withLimit limit))
      (Scoped.evaluate fuel f.body (state.withLimit limit)) :=
    Agree.evaluate fuel f.body (hne' limit)
  have hcalled : Alike
      (evaluate (fuel + 2) (.call name []) (state.session.withLimit (limit + 1)))
      (Scoped.evaluate (fuel + 2) (.call name []) (state.withLimit (limit + 1))) :=
    Agree.evaluate (fuel + 2) (.call name []) (hne' (limit + 1))
  generalize Scoped.evaluate fuel f.body _ = ended at hend hdirect
  generalize Scoped.evaluate (fuel + 2) (.call name []) _ = ended' at hend hcalled
  generalize evaluate fuel f.body _ = outcome at hdirect ⊢
  generalize evaluate (fuel + 2) (.call name []) _ = outcome' at hcalled ⊢
  cases hend with
  | none =>
      cases hdirect
      cases hcalled
      exact .none
  | some hresult hstate =>
      cases hdirect
      cases hcalled
      exact .some hresult hstate

theorem agreeInPlace_of_evaluate {fuel fuel' : Nat} {result result' : Except RunFault Int64}
    (hoccurs : session.Occurs) (hdepth : session.environment.depth ≤ limit)
    (hdirect : evaluate fuel f.body (session.withLimit limit) = some (result, direct))
    (hcalled : evaluate fuel' (.call name []) (session.withLimit (limit + 1)) =
      some (result', called)) :
    AlikeBelow limit result result' ∧ AgreeInPlace session direct called := by
  have hwell : ∀ limit, (session.withLimit limit).environment.WellFormed :=
    fun _ => hoccurs.wellFormed
  have hwidens := widens_of_evaluate (hwell limit) hdirect
  have hwidens' := widens_of_evaluate (hwell (limit + 1)) hcalled
  rw [withLimit_environment] at hwidens hwidens'
  have hend := endAlike_evaluate hfunction hparameters hoccurs hdepth (fuel + fuel')
  have hmono : evaluate (fuel + fuel') f.body (session.withLimit limit) = some (result, direct) :=
    Machine.run_mono (Nat.le_add_right fuel fuel') hdirect
  have hmono' : evaluate (fuel + fuel' + 2) (.call name []) (session.withLimit (limit + 1)) =
      some (result', called) :=
    Machine.run_mono (by omega) hcalled
  rw [hmono, hmono'] at hend
  cases hend with
  | some hresult hstate =>
    refine ⟨hresult, hstate.output_eq, hstate.functions_eq,
      hwidens'.sameShape.trans hwidens.sameShape.symm, fun index key hbound => ?_,
      fun index key hbound => ?_, fun index key hbound => ?_⟩
    · have hkept := hwidens'.kept index key hbound
      obtain ⟨value, hvalue⟩ := Option.isSome_iff_exists.mp hkept
      exact ⟨value, (hstate.valueAt?_eq hkept).trans hvalue, hvalue⟩
    · rcases hwidens.added index key hbound with hbefore | ⟨hcurrent, -⟩
      · exact .inl hbefore
      · exact .inr hcurrent
    · rcases hwidens'.added index key hbound with hbefore | ⟨-, hassigns⟩
      · exact hbefore
      · exact absurd hassigns (Expr.not_assigns_call_nil name key)
end

end Session

/-- In a session that occurs, let a function without parameters be given whose call the limit leaves
room for.  To evaluate its body in the current frame, with a limit that is lower by one, comes to an
end exactly if the call does.  Then both have the same outcome, but for the limit that a refused
call names, and print the same; the variables that there were before have the same values, and new
ones are left by the body in the current frame and by the call in none. -/
theorem call_agrees_with_body (session : Session) (hoccurs : session.Occurs) (name : String)
    (f : Function) (hfunction : session.functions.get? name = some f)
    (hparameters : f.parameters = []) (limit : Nat)
    (hdepth : session.environment.depth ≤ limit) :
    ((∃ fuel result direct,
        Session.evaluate fuel f.body (session.withLimit limit) = some (result, direct)) ↔
      ∃ fuel result called, Session.evaluate fuel (.call name []) (session.withLimit (limit + 1)) =
        some (result, called)) ∧
    ∀ fuel fuel' result result' direct called,
      Session.evaluate fuel f.body (session.withLimit limit) = some (result, direct) →
      Session.evaluate fuel' (.call name []) (session.withLimit (limit + 1)) =
        some (result', called) →
      AlikeBelow limit result result' ∧ session.AgreeInPlace direct called := by
  have hend := Session.endAlike_evaluate hfunction hparameters hoccurs hdepth
  refine ⟨⟨?_, ?_⟩, fun fuel fuel' result result' direct called hdirect hcalled =>
    Session.agreeInPlace_of_evaluate hfunction hparameters hoccurs hdepth hdirect hcalled⟩
  · rintro ⟨fuel, hdirect⟩
    exact ⟨fuel + 2, (Session.exists_iff_of_endAlike (hend fuel)).mp hdirect⟩
  · rintro ⟨fuel, result, called, hcalled⟩
    have hmono : Session.evaluate (fuel + 2) (.call name []) (session.withLimit (limit + 1)) =
        some (result, called) :=
      Machine.run_mono (Nat.le_add_right fuel 2) hcalled
    exact ⟨fuel, (Session.exists_iff_of_endAlike (hend fuel)).mpr ⟨result, called, hmono⟩⟩

/-- A body that sets a global variable, binds a name and makes a call that is beyond the limit. -/
theorem call_agrees_with_body_up_to_limit : ∃ (session : Session) (f : Function)
      (direct called : Session), session.Occurs ∧ session.functions.get? "f" = some f ∧
    f.parameters = [] ∧ session.environment.depth ≤ 0 ∧
    Session.evaluate 20 f.body (session.withLimit 0) = some (.error (.stackExhausted 0), direct) ∧
    Session.evaluate 20 (.call "f" []) (session.withLimit 1) =
      some (.error (.stackExhausted 1), called) ∧
    session.AgreeInPlace direct called ∧
    called.environment.valueAt? 0 "x" = some 2 ∧ direct.environment.Binds 0 "y" ∧
    ¬ called.environment.Binds 0 "y" := by
  obtain ⟨session, f, hregister, hfunction, hparameters, hdepth, direct, hdirect, hy, called,
      hcalled, hx, hnew⟩ : ∃ session f, (Session.Operation.register [.global "x" (.number 1),
          .function ⟨"f", [], .block [.assign "x" (.number 2), .assign "y" (.number 3),
            .call "f" []]⟩]).perform 2 (.initial 0 .silent) = some session ∧
        session.functions.get? "f" = some f ∧ f.parameters = [] ∧
        session.environment.depth ≤ 0 ∧
        ∃ direct, Session.evaluate 20 f.body (session.withLimit 0) =
          some (.error (.stackExhausted 0), direct) ∧ direct.environment.Binds 0 "y" ∧
        ∃ called, Session.evaluate 20 (.call "f" []) (session.withLimit 1) =
          some (.error (.stackExhausted 1), called) ∧
          called.environment.valueAt? 0 "x" = some 2 ∧ ¬ session.environment.Binds 0 "y" :=
    ⟨_, _, rfl, rfl, rfl, Nat.le_refl 0, _, rfl, rfl, _, rfl, rfl, nofun⟩
  have hoccurs : session.Occurs := .perform _ 2 (.initial 0 .silent) hregister
  obtain ⟨-, hagree⟩ :=
    call_agrees_with_body session hoccurs "f" f hfunction hparameters 0 hdepth
  have hinPlace := (hagree 20 20 _ _ direct called hdirect hcalled).2
  exact ⟨session, f, direct, called, hoccurs, hfunction, hparameters, hdepth, hdirect, hcalled,
    hinPlace, hx, hy, fun hbound => hnew (hinPlace.called_new 0 "y" hbound)⟩

end IntScript
