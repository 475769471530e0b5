import Mathlib
import IntScript.Proofs.Evaluation.Composition
import IntScript.Proofs.Evaluation.Resolution
import IntScript.Session.Program

/-!
# The order of arguments

A machine evaluates the arguments of a call one by one, in the order of the parameters, whether they
are labelled or not.  The order matters, because an argument may print, assign or fail.

* `Session.applyInOrder` : the arguments are evaluated one after the other from outside, each with a
  machine of its own, and then the function is entered.
* `Session.exists_applyInOrder_iff` : a call comes to the same.  The induction is on the arguments,
  with `Machine.endsWith_under_iff` for the tasks that wait for them.
* `labelled_call_eq_positional` : a labelled call is the positional one with its arguments in the
  order of the parameters, step by step.
* `labelled_arguments_evaluated_per_parameter` : how often a labelled call evaluates its arguments.
-/

namespace IntScript

namespace Session

open Machine (EndsWith endsWith_step_iff endsWith_outcome_iff endsWith_under_iff
  exists_run_eq_some_iff)

/-- Evaluates arguments one after the other and binds their values to the parameters. -/
def bindArguments (fuel : Nat) (bound : Table Int64) : Arguments → Run (Table Int64)
  | [] => return bound
  | (parameter, argument) :: rest => do
    let value ← evaluate fuel argument
    bindArguments fuel (bound.insert parameter value) rest

/-- Evaluates the body of a function in a frame of its own, if the limit leaves room for it. -/
def applyBound (fuel : Nat) (function : Function) (bound : Table Int64) : Run Int64 :=
  fun session =>
    if session.isFull then some (.error (.stackExhausted session.callLimit), session)
    else
      (evaluate fuel function.body (session.enter bound)).map fun (result, after) =>
        (result, after.leave session.environment.current)

/-- Evaluates arguments one after the other and then applies the function to their values. -/
def applyInOrder (fuel : Nat) (function : Function) (bound : Table Int64)
    (arguments : Arguments) : Run Int64 := do
  applyBound fuel function (← bindArguments fuel bound arguments)

section

variable {fuel : Nat} {function : Function} {bound : Table Int64} {arguments rest : Arguments}
  {parameter : String} {argument : Expr} {session after : Session}
  {result : Except RunFault Int64}

theorem applyInOrder_cons_eq_some_iff :
    applyInOrder fuel function bound ((parameter, argument) :: rest) session =
        some (result, after) ↔
      (∃ fault, evaluate fuel argument session = some (.error fault, after) ∧
        result = .error fault) ∨
      ∃ value mid, evaluate fuel argument session = some (.ok value, mid) ∧
        applyInOrder fuel function (bound.insert parameter value) rest mid =
          some (result, after) := by
  rw [applyInOrder, bindArguments, bind_assoc]
  exact bind_eq_some_iff

theorem applyInOrder_nil : applyInOrder fuel function bound [] =
    applyBound fuel function bound := rfl

/-- To enter a call comes to what its body comes to in a frame of its own. -/
theorem exists_applyBound_iff :
    (∃ fuel, applyBound fuel function bound session = some (result, after)) ↔
      EndsWith (Machine.call function bound [] [] session) result after := by
  simp only [applyBound, Machine.call]
  split
  next hfull =>
    rw [endsWith_outcome_iff]
    simp [eq_comm]
  next hroom =>
    have hunder : (⟨.evaluate function.body, [.leave session.environment.current],
        session.enter bound⟩ : Machine) = Machine.under
          ⟨.evaluate function.body, [], session.enter bound⟩
          [.leave session.environment.current] := rfl
    rw [hunder, endsWith_under_iff]
    simp only [Option.map_eq_some_iff, Prod.exists, Prod.mk.injEq]
    -- The call is left with the outcome of the body, be it a value or a fault.
    have hleave : ∀ other mid, EndsWith
        ⟨.outcome other, [.leave session.environment.current], mid⟩ result after ↔
          other = result ∧ mid.leave session.environment.current = after := by
      intro other mid
      rw [← endsWith_step_iff]
      cases other <;> exact endsWith_outcome_iff.trans (and_congr eq_comm eq_comm)
    constructor
    · rintro ⟨fuel, other, mid, hbody, hend⟩
      exact ⟨other, mid, exists_run_eq_some_iff.mp ⟨fuel, hbody⟩, (hleave other mid).mpr hend⟩
    · rintro ⟨other, mid, hbody, hend⟩
      obtain ⟨fuel, hbody⟩ := exists_run_eq_some_iff.mpr hbody
      exact ⟨fuel, other, mid, hbody, (hleave other mid).mp hend⟩

/-- More fuel does not change what an application comes to. -/
theorem applyInOrder_mono {more : Nat} (hle : fuel ≤ more)
    (h : applyInOrder fuel function bound arguments session = some (result, after)) :
    applyInOrder more function bound arguments session = some (result, after) := by
  induction arguments generalizing bound session with
  | nil =>
      rw [applyInOrder_nil] at h ⊢
      unfold applyBound at h ⊢
      split at h
      next hfull => rwa [if_pos hfull]
      next hroom =>
        rw [if_neg hroom]
        obtain ⟨⟨other, mid⟩, hbody, hend⟩ := Option.map_eq_some_iff.mp h
        exact Option.map_eq_some_iff.mpr ⟨(other, mid), Machine.run_mono hle hbody, hend⟩
  | cons entry rest ih =>
      rw [applyInOrder_cons_eq_some_iff] at h ⊢
      rcases h with ⟨fault, hfirst, rfl⟩ | ⟨value, mid, hfirst, hrest⟩
      · exact .inl ⟨fault, Machine.run_mono hle hfirst, rfl⟩
      · exact .inr ⟨value, mid, Machine.run_mono hle hfirst, ih hrest⟩

/-- A call whose arguments are in order comes to what they and the function come to, one after the
other. -/
theorem exists_applyInOrder_iff :
    (∃ fuel, applyInOrder fuel function bound arguments session = some (result, after)) ↔
      EndsWith (Machine.call function bound arguments [] session) result after := by
  induction arguments generalizing bound session with
  | nil => exact exists_applyBound_iff
  | cons entry rest ih =>
      obtain ⟨parameter, argument⟩ := entry
      -- The first argument has a machine of its own, with the rest of the call below it.
      have hunder : Machine.call function bound ((parameter, argument) :: rest) [] session =
          Machine.under ⟨.evaluate argument, [], session⟩
            [.argument function bound parameter rest] := rfl
      rw [hunder, endsWith_under_iff]
      simp only [applyInOrder_cons_eq_some_iff]
      constructor
      · rintro ⟨fuel, ⟨fault, hfirst, rfl⟩ | ⟨value, mid, hfirst, hrest⟩⟩
        · refine ⟨.error fault, after, exists_run_eq_some_iff.mp ⟨fuel, hfirst⟩, ?_⟩
          rw [← endsWith_step_iff]
          exact endsWith_outcome_iff.mpr ⟨rfl, rfl⟩
        · refine ⟨.ok value, mid, exists_run_eq_some_iff.mp ⟨fuel, hfirst⟩, ?_⟩
          rw [← endsWith_step_iff]
          exact ih.mp ⟨fuel, hrest⟩
      · rintro ⟨other, mid, hfirst, hrest⟩
        obtain ⟨fuel, hfirst⟩ := exists_run_eq_some_iff.mpr hfirst
        rw [← endsWith_step_iff] at hrest
        cases other with
        | error fault =>
            obtain ⟨rfl, rfl⟩ := endsWith_outcome_iff.mp hrest
            exact ⟨fuel, .inl ⟨fault, hfirst, rfl⟩⟩
        | ok value =>
            obtain ⟨fuel', hrest⟩ := ih.mpr hrest
            exact ⟨max fuel fuel', .inr ⟨value, mid,
              Machine.run_mono (Nat.le_max_left fuel fuel') hfirst,
              applyInOrder_mono (Nat.le_max_right fuel fuel') hrest⟩⟩

/-! ## Labelled calls -/

/-- Expressions with the same first step come to the same after as many steps. -/
theorem evaluate_eq_of_step_eq {first second : Expr}
    (h : Machine.step ⟨.evaluate first, [], session⟩ =
      Machine.step ⟨.evaluate second, [], session⟩) (fuel : Nat) :
    evaluate fuel first session = evaluate fuel second session := by
  cases fuel with
  | zero => rfl
  | succ fuel => exact congrArg (Machine.run fuel) h

/-- A labelled call evaluates its arguments as they are matched, and then the function. -/
theorem exists_evaluate_labelledCall_iff {callee : String} {ordered : Arguments}
    (hfunction : session.functions.get? callee = some function)
    (hlabels : function.matchLabels arguments = .ok ordered) :
    (∃ fuel, evaluate fuel (.labelledCall callee arguments) session = some (result, after)) ↔
      ∃ fuel, applyInOrder fuel function .empty ordered session = some (result, after) := by
  have hrun : (∃ fuel, evaluate fuel (.labelledCall callee arguments) session =
      some (result, after)) ↔
        EndsWith ⟨.evaluate (.labelledCall callee arguments), [], session⟩ result after :=
    exists_run_eq_some_iff
  have hstep : Machine.step ⟨.evaluate (.labelledCall callee arguments), [], session⟩ =
      Machine.call function .empty ordered [] session :=
    step_labelledCall_of_ok (resolveLabelled_eq_ok_iff.mpr ⟨hfunction, hlabels⟩)
  rw [hrun, exists_applyInOrder_iff, ← endsWith_step_iff, hstep]

end

end Session

/-- A labelled call whose labels match is the positional call with its arguments in the order of the
parameters: the one goes on as the other from the first step, whatever is pending, so that they have
the same outcome, or none, after as many steps.  The order in which the labelled arguments are
written does not matter; they are evaluated one after the other in the order of the parameters, up
to the first that fails, and then the function is applied. -/
theorem labelled_call_eq_positional (session : Session) (callee : String) (f : Function)
    (hfunction : session.functions.get? callee = some f) (arguments ordered : Arguments)
    (hlabels : f.matchLabels arguments = .ok ordered) :
    (∃ positional, f.Orders arguments positional) ∧
    ∀ positional, f.Orders arguments positional →
      (∀ pending, Machine.step ⟨.evaluate (.labelledCall callee arguments), pending, session⟩ =
        Machine.step ⟨.evaluate (.call callee positional), pending, session⟩) ∧
      (∀ fuel, Session.evaluate fuel (.labelledCall callee arguments) session =
        Session.evaluate fuel (.call callee positional) session) ∧
      (∀ permuted : Arguments, permuted.Perm arguments → ∀ fuel,
        Session.evaluate fuel (.labelledCall callee permuted) session =
          Session.evaluate fuel (.labelledCall callee arguments) session) ∧
      ∀ result after,
        (∃ fuel, Session.evaluate fuel (.labelledCall callee arguments) session =
          some (result, after)) ↔
        ∃ fuel, Session.applyInOrder fuel f .empty (f.parameters.zip positional) session =
          some (result, after) := by
  refine ⟨⟨_, Function.orders_of_matchLabels hlabels⟩, fun positional horders => ?_⟩
  have hzip := Function.zip_eq_of_orders hlabels horders
  have hresolve : session.resolve callee positional = .ok (f, ordered) :=
    Session.resolve_eq_ok_iff.mpr ⟨hfunction, horders.length_eq, hzip.symm⟩
  have hstep : ∀ permuted : Arguments, permuted.Perm arguments → ∀ pending,
      Machine.step ⟨.evaluate (.labelledCall callee permuted), pending, session⟩ =
        Machine.step ⟨.evaluate (.call callee positional), pending, session⟩ := by
    intro permuted hperm pending
    have hpermuted := Session.resolveLabelled_eq_ok_iff.mpr
      ⟨hfunction, Function.matchLabels_perm hperm hlabels⟩
    rw [Session.step_labelledCall_of_ok hpermuted, Session.step_call_of_ok hresolve]
  refine ⟨hstep arguments (.refl arguments), ?_, fun permuted hperm fuel => ?_,
    fun result after => ?_⟩
  · exact Session.evaluate_eq_of_step_eq (hstep arguments (.refl arguments) [])
  · exact Session.evaluate_eq_of_step_eq
      ((hstep permuted hperm []).trans (hstep arguments (.refl arguments) []).symm) fuel
  · rw [hzip]
    exact Session.exists_evaluate_labelledCall_iff hfunction hlabels

/-- A function that names a parameter twice, and arguments that print. -/
theorem labelled_call_eq_positional_of_repeated_parameter : ∃ (session : Session) (f : Function)
      (ordered : Arguments) (after : Session),
    session.functions.get? "f" = some f ∧ f.parameters = ["a", "b", "a"] ∧
    f.matchLabels [("b", .println (.number 2)), ("a", .println (.number 1))] = .ok ordered ∧
    Session.evaluate 20 (.labelledCall "f"
        [("a", .println (.number 1)), ("b", .println (.number 2))]) session =
      Session.evaluate 20 (.labelledCall "f"
        [("b", .println (.number 2)), ("a", .println (.number 1))]) session ∧
    Session.evaluate 20 (.labelledCall "f"
        [("b", .println (.number 2)), ("a", .println (.number 1))]) session =
      some (.ok 2, after) ∧ after.output = .buffer "1\n2\n1\n" := by
  have hfunction : ((Session.initial 1 (.buffer "")).defineFunction
      ⟨"f", ["a", "b", "a"], .symbol "b"⟩).functions.get? "f" =
        some ⟨"f", ["a", "b", "a"], .symbol "b"⟩ := rfl
  obtain ⟨-, hpositional⟩ := labelled_call_eq_positional _ "f" _ hfunction
    [("b", .println (.number 2)), ("a", .println (.number 1))] _ rfl
  obtain ⟨-, heval, hperm, -⟩ := hpositional
    [.println (.number 1), .println (.number 2), .println (.number 1)]
    (by simp [Function.Orders])
  exact ⟨_, _, _, _, hfunction, rfl, rfl, hperm _ (.swap ..) 20, (heval 20).trans rfl, rfl⟩

/-- If the labels of a call match, nothing but its arguments is evaluated, and each of them as often
as its label is the name of a parameter, which is at least once.  So the expressions that are
evaluated are a permutation of those of the call exactly if no two parameters have the same name. -/
theorem labelled_arguments_evaluated_per_parameter (f : Function) (arguments ordered : Arguments)
    (hlabels : f.matchLabels arguments = .ok ordered) :
    (∀ given ∈ arguments,
      ordered.count given = f.parameters.count given.1 ∧ 0 < f.parameters.count given.1) ∧
    (∀ entry ∈ ordered, entry ∈ arguments) ∧
    ((ordered.map Prod.snd).Perm (arguments.map Prod.snd) ↔ f.parameters.Nodup) ∧
    ∀ (session : Session) (callee : String), session.functions.get? callee = some f →
      ∀ result after,
        (∃ fuel, Session.evaluate fuel (.labelledCall callee arguments) session =
          some (result, after)) ↔
        ∃ fuel, Session.applyInOrder fuel f .empty ordered session = some (result, after) := by
  refine ⟨fun given hgiven => ⟨Function.count_of_matchLabels hlabels hgiven,
      Function.count_pos_of_matchLabels hlabels hgiven⟩,
    (Function.matchLabels_eq_ok_iff.mp hlabels).2.2, ⟨fun hperm => ?_, fun hnodup => ?_⟩,
    fun session callee hfunction result after =>
      Session.exists_evaluate_labelledCall_iff hfunction hlabels⟩
  · have hlength := hperm.length_eq
    rw [List.length_map, List.length_map] at hlength
    exact Function.nodup_of_length_matchLabels hlabels (Nat.le_of_eq hlength)
  · exact (Function.perm_of_matchLabels hlabels hnodup).map Prod.snd

/-- Two parameters, and arguments in the other order. -/
theorem labelled_arguments_evaluated_per_parameter_in_reverse :
    ∃ (f : Function) (ordered : Arguments),
      f.matchLabels [("b", .println (.number 2)), ("a", .call "p" [])] = .ok ordered ∧
      ordered.count ("a", .call "p" []) = 1 ∧
      (ordered.map Prod.snd).Perm [.println (.number 2), .call "p" []] := by
  obtain ⟨hcount, -, hperm, -⟩ := labelled_arguments_evaluated_per_parameter
    ⟨"f", ["a", "b"], .symbol "a"⟩ [("b", .println (.number 2)), ("a", .call "p" [])] _ rfl
  exact ⟨⟨"f", ["a", "b"], .symbol "a"⟩, _, rfl, (hcount ("a", .call "p" []) (by simp)).1,
    hperm.mpr (by decide)⟩

/-- The parameters of a definition may have the same name.  Then the one argument with that label is
evaluated for each of them. -/
theorem labelled_argument_evaluated_twice : ∃ (p f main : Function) (ordered : Arguments)
      (after : Session),
    parseProgram ("define p() \x7b println(7); \x7d define f(a, a) \x7b a; \x7d " ++
      "define main() \x7b f[a = p()]; \x7d") "shell" =
        .ok [.function p, .function f, .function main] ∧
    main.body = .block [.labelledCall "f" [("a", .call "p" [])]] ∧
    f.matchLabels [("a", .call "p" [])] = .ok ordered ∧
    ¬ (ordered.map Prod.snd).Perm [.call "p" []] ∧
    Session.runProgram 40 [.function p, .function f, .function main]
      (.initial 2 (.buffer "")) = some (.ok 7, after) ∧
    after.output = .buffer "7\n7\n" := by
  refine ⟨⟨"p", [], .block [.println (.number 7)]⟩, ⟨"f", ["a", "a"], .block [.symbol "a"]⟩,
    ⟨"main", [], .block [.labelledCall "f" [("a", .call "p" [])]]⟩, _, _, by cbv, rfl, rfl, ?_,
    rfl, rfl⟩
  intro hperm
  exact absurd hperm.length_eq (by decide)

end IntScript
