import IntScript.Evaluation.Machine
import IntScript.Proofs.Evaluation.Labels

/-!
# What calls are resolved to

A call is resolved in one step, before any of its arguments is evaluated: the function is looked up,
and the arguments are counted or their labels matched.  If that fails, the session is as before.

* `Session.resolve_eq_ok_iff`, `Session.resolve_eq_error_iff` : a positional call.
* `Session.resolveLabelled_eq_ok_iff`, `Session.resolveLabelled_eq_error_iff` : a labelled call.
* `Session.Refuses` : what it means for a machine that a call fails at this stage.
* `calls_are_refused_exactly` : the main result.
-/

namespace IntScript

namespace Session

variable {session : Session} {callee : String} {function : Function} {fault : RunFault}
  {call : Expr} {result : Function × Arguments}

theorem function_eq_ok_iff : session.function callee = .ok function ↔
    session.functions.get? callee = some function := by
  unfold Session.function
  cases session.functions.get? callee <;> simp

theorem function_eq_error_iff : session.function callee = .error fault ↔
    session.functions.get? callee = none ∧ fault = .undefinedFunction callee := by
  unfold Session.function
  cases session.functions.get? callee <;> simp [eq_comm]

/-! ## Positional calls -/

section

variable {arguments : List Expr} {resolved : Arguments}

theorem resolve_eq_ok_iff : session.resolve callee arguments = .ok (function, resolved) ↔
    session.functions.get? callee = some function ∧
      function.arity = arguments.length ∧
      resolved = function.parameters.zip arguments := by
  rw [resolve, exceptBind_eq_ok_iff]
  simp only [function_eq_ok_iff]
  constructor
  · rintro ⟨found, hfunction, h⟩
    split at h
    next hlength =>
      cases h
      exact ⟨hfunction, hlength, rfl⟩
    next => cases h
  · rintro ⟨hfunction, hlength, rfl⟩
    exact ⟨function, hfunction, if_pos hlength⟩

theorem get?_of_resolve (h : session.resolve callee arguments = .ok (function, resolved)) :
    session.functions.get? callee = some function ∧
      ∀ argument ∈ resolved, argument.2 ∈ arguments := by
  obtain ⟨hfunction, -, rfl⟩ := resolve_eq_ok_iff.mp h
  exact ⟨hfunction, fun argument hmem => (List.of_mem_zip hmem).2⟩

/-- There is one argument for each parameter, in the order of the parameters. -/
theorem map_fst_of_resolve (h : session.resolve callee arguments = .ok (function, resolved)) :
    resolved.map Prod.fst = function.parameters := by
  obtain ⟨-, harity, rfl⟩ := resolve_eq_ok_iff.mp h
  exact List.map_fst_zip (Nat.le_of_eq harity)

/-- A positional call is refused if there is no such function or another number of parameters. -/
inductive PositionalFault (session : Session) (callee : String) (arguments : List Expr) :
    RunFault → Prop where
  | undefined : session.functions.get? callee = none →
      PositionalFault session callee arguments (.undefinedFunction callee)
  | arity {function : Function} : session.functions.get? callee = some function →
      function.arity ≠ arguments.length →
      PositionalFault session callee arguments
        (.arity callee function.arity arguments.length)

theorem resolve_eq_error_iff : session.resolve callee arguments = .error fault ↔
    session.PositionalFault callee arguments fault := by
  rw [resolve, exceptBind_eq_error_iff]
  simp only [function_eq_ok_iff, function_eq_error_iff]
  constructor
  · rintro (⟨hnone, rfl⟩ | ⟨found, hfunction, h⟩)
    · exact .undefined hnone
    · split at h
      next => cases h
      next hlength =>
        cases h
        exact .arity hfunction hlength
  · intro h
    cases h with
    | undefined hnone => exact .inl ⟨hnone, rfl⟩
    | arity hfunction hlength => exact .inr ⟨_, hfunction, if_neg hlength⟩

end

/-! ## Labelled calls -/

section

variable {arguments resolved : Arguments}

theorem resolveLabelled_eq_ok_iff :
    session.resolveLabelled callee arguments = .ok (function, resolved) ↔
      session.functions.get? callee = some function ∧
        function.matchLabels arguments = .ok resolved := by
  rw [resolveLabelled, exceptBind_eq_ok_iff]
  simp only [function_eq_ok_iff, exceptBind_eq_ok_iff]
  constructor
  · rintro ⟨found, hfunction, ordered, hlabels, h⟩
    cases h
    exact ⟨hfunction, hlabels⟩
  · rintro ⟨hfunction, hlabels⟩
    exact ⟨function, hfunction, resolved, hlabels, rfl⟩

theorem get?_of_resolveLabelled
    (h : session.resolveLabelled callee arguments = .ok (function, resolved)) :
    session.functions.get? callee = some function ∧
      ∀ argument ∈ resolved, argument ∈ arguments := by
  obtain ⟨hfunction, hlabels⟩ := resolveLabelled_eq_ok_iff.mp h
  exact ⟨hfunction, (Function.matchLabels_eq_ok_iff.mp hlabels).2.2⟩

/-- There is one argument for each parameter, in the order of the parameters. -/
theorem map_fst_of_resolveLabelled
    (h : session.resolveLabelled callee arguments = .ok (function, resolved)) :
    resolved.map Prod.fst = function.parameters :=
  (Function.matchLabels_eq_ok_iff.mp (resolveLabelled_eq_ok_iff.mp h).2).2.1

/-- A labelled call is refused if there is no such function or its labels do not match. -/
inductive LabelledFault (session : Session) (callee : String) (arguments : Arguments) :
    RunFault → Prop where
  | undefined : session.functions.get? callee = none →
      LabelledFault session callee arguments (.undefinedFunction callee)
  | labels {function : Function} {fault : RunFault} :
      session.functions.get? callee = some function →
      function.MatchFault (arguments.map Prod.fst) fault →
      LabelledFault session callee arguments fault

theorem resolveLabelled_eq_error_iff : session.resolveLabelled callee arguments = .error fault ↔
    session.LabelledFault callee arguments fault := by
  rw [resolveLabelled, exceptBind_eq_error_iff]
  simp only [function_eq_ok_iff, function_eq_error_iff, exceptBind_eq_error_iff,
    Function.matchLabels_eq_error_iff]
  constructor
  · rintro (⟨hnone, rfl⟩ | ⟨found, hfunction, hlabels | ⟨ordered, -, h⟩⟩)
    · exact .undefined hnone
    · exact .labels hfunction hlabels
    · cases h
  · intro h
    cases h with
    | undefined hnone => exact .inl ⟨hnone, rfl⟩
    | labels hfunction hlabels => exact .inr ⟨_, hfunction, .inl hlabels⟩

end

/-! ## Calls that are refused -/

/-- To evaluate the call fails in the first step, before any argument is evaluated.  The limit on
calls does not count here: it is checked once all arguments are evaluated. -/
structure Refuses (session : Session) (call : Expr) (fault : RunFault) : Prop where
  step_eq : ∀ pending, Machine.step ⟨.evaluate call, pending, session⟩ =
    ⟨.outcome (.error fault), pending, session⟩
  ne_stackExhausted : ∀ limit, fault ≠ .stackExhausted limit

/-- Nothing has happened to the session. -/
theorem Refuses.evaluate_eq (h : session.Refuses call fault) (fuel : Nat) :
    evaluate (fuel + 2) call session = some (.error fault, session) := by
  have hrun : evaluate (fuel + 2) call session =
      Machine.run (fuel + 1) (Machine.step ⟨.evaluate call, [], session⟩) := rfl
  rw [hrun, h.step_eq]
  rfl

/-- Once a call is resolved, the first step goes into an argument or into the function, unless the
limit forbids that. -/
theorem eq_stackExhausted_of_call {arguments : Arguments} {bound : Table Int64}
    {pending : List Pending}
    (h : Machine.call function bound arguments pending session =
      ⟨.outcome (.error fault), pending, session⟩) : fault = .stackExhausted session.callLimit := by
  cases arguments with
  | cons argument rest => cases h
  | nil =>
      rw [Machine.call] at h
      split at h
      · cases h
        rfl
      · cases h

/-- A call is refused for the fault that it is resolved to. -/
theorem refuses_iff {resolved : Except RunFault (Function × Arguments)}
    (herror : ∀ cause pending, resolved = .error cause →
      Machine.step ⟨.evaluate call, pending, session⟩ =
        ⟨.outcome (.error cause), pending, session⟩)
    (hok : ∀ function arguments pending, resolved = .ok (function, arguments) →
      Machine.step ⟨.evaluate call, pending, session⟩ =
        Machine.call function .empty arguments pending session)
    (hne : ∀ cause limit, resolved = .error cause → cause ≠ .stackExhausted limit) :
    session.Refuses call fault ↔ resolved = .error fault := by
  constructor
  · intro hrefuses
    cases hresolved : resolved with
    | error cause =>
        have hstep := hrefuses.step_eq []
        rw [herror cause [] hresolved] at hstep
        cases hstep
        rfl
    | ok entered =>
        have hstep := hrefuses.step_eq []
        rw [hok entered.1 entered.2 [] hresolved] at hstep
        exact absurd (eq_stackExhausted_of_call hstep) (hrefuses.ne_stackExhausted _)
  · intro hresolved
    exact ⟨fun pending => herror fault pending hresolved, fun limit => hne fault limit hresolved⟩

theorem PositionalFault.ne_stackExhausted {arguments : List Expr} {limit : Nat}
    (h : session.PositionalFault callee arguments fault) : fault ≠ .stackExhausted limit := by
  cases h <;> exact nofun

theorem LabelledFault.ne_stackExhausted {arguments : Arguments} {limit : Nat}
    (h : session.LabelledFault callee arguments fault) : fault ≠ .stackExhausted limit := by
  cases h with
  | undefined => exact nofun
  | labels _ hfault =>
      cases hfault with
      | label _ _ hlabel => cases hlabel <;> exact nofun
      | missing => exact nofun

section

variable {pending : List Pending}

theorem step_call_of_error {arguments : List Expr}
    (h : session.resolve callee arguments = .error fault) :
    Machine.step ⟨.evaluate (.call callee arguments), pending, session⟩ =
      ⟨.outcome (.error fault), pending, session⟩ := by
  simp only [Machine.step, Machine.descend, h]

theorem step_call_of_ok {arguments : List Expr} {resolved : Arguments}
    (h : session.resolve callee arguments = .ok (function, resolved)) :
    Machine.step ⟨.evaluate (.call callee arguments), pending, session⟩ =
      Machine.call function .empty resolved pending session := by
  simp only [Machine.step, Machine.descend, h]

theorem step_labelledCall_of_error {arguments : Arguments}
    (h : session.resolveLabelled callee arguments = .error fault) :
    Machine.step ⟨.evaluate (.labelledCall callee arguments), pending, session⟩ =
      ⟨.outcome (.error fault), pending, session⟩ := by
  simp only [Machine.step, Machine.descend, h]

theorem step_labelledCall_of_ok {arguments resolved : Arguments}
    (h : session.resolveLabelled callee arguments = .ok (function, resolved)) :
    Machine.step ⟨.evaluate (.labelledCall callee arguments), pending, session⟩ =
      Machine.call function .empty resolved pending session := by
  simp only [Machine.step, Machine.descend, h]

end

theorem refuses_call_iff {arguments : List Expr} :
    session.Refuses (.call callee arguments) fault ↔
      session.PositionalFault callee arguments fault := by
  rw [← resolve_eq_error_iff]
  exact refuses_iff (fun _ _ => step_call_of_error) (fun _ _ _ => step_call_of_ok)
    fun _ _ h => (resolve_eq_error_iff.mp h).ne_stackExhausted

theorem refuses_labelledCall_iff {arguments : Arguments} :
    session.Refuses (.labelledCall callee arguments) fault ↔
      session.LabelledFault callee arguments fault := by
  rw [← resolveLabelled_eq_error_iff]
  exact refuses_iff (fun _ _ => step_labelledCall_of_error)
    (fun _ _ _ => step_labelledCall_of_ok)
    fun _ _ h => (resolveLabelled_eq_error_iff.mp h).ne_stackExhausted

theorem exists_positionalFault_iff {arguments : List Expr} :
    (∃ fault, session.PositionalFault callee arguments fault) ↔
      session.functions.get? callee = none ∨ ∃ function,
        session.functions.get? callee = some function ∧ function.arity ≠ arguments.length := by
  constructor
  · rintro ⟨fault, hnone | ⟨hfunction, hlength⟩⟩
    · exact .inl hnone
    · exact .inr ⟨_, hfunction, hlength⟩
  · rintro (hnone | ⟨function, hfunction, hlength⟩)
    · exact ⟨_, .undefined hnone⟩
    · exact ⟨_, .arity hfunction hlength⟩

theorem exists_labelledFault_iff {arguments : Arguments} :
    (∃ fault, session.LabelledFault callee arguments fault) ↔
      session.functions.get? callee = none ∨ ∃ function,
        session.functions.get? callee = some function ∧
          ¬ function.Matches (arguments.map Prod.fst) := by
  constructor
  · rintro ⟨fault, hnone | ⟨hfunction, hfault⟩⟩
    · exact .inl hnone
    · exact .inr ⟨_, hfunction, hfault.not_matches⟩
  · rintro (hnone | ⟨function, hfunction, hnot⟩)
    · exact ⟨_, .undefined hnone⟩
    · obtain ⟨fault, hfault⟩ := Function.exists_matchLabels_eq_error_iff.mpr hnot
      exact ⟨fault, .labels hfunction (Function.matchLabels_eq_error_iff.mp hfault)⟩

end Session

/-- A positional call is refused exactly if there is no function of its name or if that has another
number of parameters.  A labelled call is refused exactly if there is no function of its name or if
its labels are not the names of the parameters, each of them once: for the first label that names no
parameter or repeats one before it, or else for the first parameter without a label.  A call that is
refused has changed nothing in the session. -/
theorem calls_are_refused_exactly (session : Session) (callee : String) :
    (∀ arguments fault, session.Refuses (.call callee arguments) fault ↔
      session.PositionalFault callee arguments fault) ∧
    (∀ arguments, (∃ fault, session.Refuses (.call callee arguments) fault) ↔
      session.functions.get? callee = none ∨ ∃ function,
        session.functions.get? callee = some function ∧ function.arity ≠ arguments.length) ∧
    (∀ arguments fault, session.Refuses (.labelledCall callee arguments) fault ↔
      session.LabelledFault callee arguments fault) ∧
    (∀ arguments, (∃ fault, session.Refuses (.labelledCall callee arguments) fault) ↔
      session.functions.get? callee = none ∨ ∃ function,
        session.functions.get? callee = some function ∧
          ¬ function.Matches (arguments.map Prod.fst)) ∧
    ∀ call fault, session.Refuses call fault → ∀ fuel,
      Session.evaluate (fuel + 2) call session = some (.error fault, session) := by
  refine ⟨fun arguments fault => Session.refuses_call_iff, fun arguments => ?_,
    fun arguments fault => Session.refuses_labelledCall_iff, fun arguments => ?_,
    fun call fault hrefuses fuel => hrefuses.evaluate_eq fuel⟩
  · simp only [Session.refuses_call_iff]
    exact Session.exists_positionalFault_iff
  · simp only [Session.refuses_labelledCall_iff]
    exact Session.exists_labelledFault_iff

end IntScript
