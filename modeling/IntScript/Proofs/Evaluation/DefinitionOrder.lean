import IntScript.Proofs.Evaluation.CallLimit
import IntScript.Proofs.Evaluation.Registration

/-!
# The order of definitions

A function may be called before it is defined only if nobody evaluates the call before that: the
values of global variables are computed while the functions behind them are still unknown.  Where
this does no harm, all functions may as well come first.

To have more functions makes a difference to an evaluation in one place only, where a function is
called that it does not have.  Two evaluations that start alike, but one of them with more
functions, therefore do the same step by step until the other fails to find a function, and from
then on that fault is its outcome.

* `Machine.step_withFunctions` : one step of the two, and `Session.evaluate_withFunctions` : whole
  runs.
* `Session.TakesIn.functions_first` : a program that is taken in without such a fault.
* `functions_may_come_first` : the main result.
-/

namespace IntScript

/-! ## More functions -/

/-- Every entry of the one table is in the other. -/
def Table.Within {α : Type} (small large : Table α) : Prop :=
  ∀ name value, small.get? name = some value → large.get? name = some value

namespace Session

/-- The session with other functions. -/
def withFunctions (session : Session) (functions : Table Function) : Session :=
  { session with functions }

variable {session : Session} {table : Table Function} {callee : String}

/-- A function that is found is found among more functions, too. -/
theorem function_withFunctions (hwithin : session.functions.Within table) (callee : String) :
    (session.withFunctions table).function callee = session.function callee ∨
      session.function callee = .error (.undefinedFunction callee) := by
  cases h : session.functions.get? callee with
  | none => exact .inr (function_eq_error_iff.mpr ⟨h, rfl⟩)
  | some f =>
      have hmore : (session.withFunctions table).function callee = .ok f :=
        function_eq_ok_iff.mpr (hwithin callee f h)
      exact .inl (hmore.trans (function_eq_ok_iff.mpr h).symm)

theorem resolve_withFunctions (hwithin : session.functions.Within table) (callee : String)
    (arguments : List Expr) :
    (session.withFunctions table).resolve callee arguments = session.resolve callee arguments ∨
      session.resolve callee arguments = .error (.undefinedFunction callee) := by
  rcases function_withFunctions hwithin callee with h | h
  · exact .inl (by rw [resolve, resolve, h])
  · exact .inr (by rw [resolve, h]; rfl)

theorem resolveLabelled_withFunctions (hwithin : session.functions.Within table)
    (callee : String) (arguments : Arguments) :
    (session.withFunctions table).resolveLabelled callee arguments =
        session.resolveLabelled callee arguments ∨
      session.resolveLabelled callee arguments = .error (.undefinedFunction callee) := by
  rcases function_withFunctions hwithin callee with h | h
  · exact .inl (by rw [resolveLabelled, resolveLabelled, h])
  · exact .inr (by rw [resolveLabelled, h]; rfl)

end Session

open Session (resolve_withFunctions resolveLabelled_withFunctions)

/-! ## Two machines in step -/

namespace Machine

/-- The machine with other functions. -/
def withFunctions (machine : Machine) (functions : Table Function) : Machine :=
  { machine with session := machine.session.withFunctions functions }

/-- What two machines that were alike but for their functions have come to by one step: they are
alike again, or the one with fewer functions has failed to find one. -/
inductive AlikeUnlessUndefined (table : Table Function) : (fewer more : Machine) → Prop where
  | alike (machine : Machine) : AlikeUnlessUndefined table machine (machine.withFunctions table)
  | undefined (callee : String) (pending : List Pending) (session : Session) (more : Machine) :
      AlikeUnlessUndefined table
        ⟨.outcome (.error (.undefinedFunction callee)), pending, session⟩ more

section

variable {table : Table Function} {session : Session}

theorem call_withFunctions (function : Function) (bound : Table Int64) (arguments : Arguments)
    (pending : List Pending) :
    AlikeUnlessUndefined table (call function bound arguments pending session)
      (call function bound arguments pending (session.withFunctions table)) := by
  have hsame : call function bound arguments pending (session.withFunctions table) =
      (call function bound arguments pending session).withFunctions table := by
    cases arguments with
    | cons argument rest => rfl
    | nil =>
        have hfull : (session.withFunctions table).isFull = session.isFull := rfl
        rw [call, call, hfull]
        split <;> rfl
  rw [hsame]
  exact .alike _

theorem descend_withFunctions (hwithin : session.functions.Within table) (expr : Expr)
    (pending : List Pending) :
    AlikeUnlessUndefined table (descend expr pending session)
      (descend expr pending (session.withFunctions table)) := by
  cases expr with
  | symbol name =>
      have hlookup : (session.withFunctions table).environment.lookup name =
        session.environment.lookup name := rfl
      simp only [descend, hlookup]
      cases session.environment.lookup name <;> exact .alike _
  | block body => cases body <;> exact .alike _
  | call callee arguments =>
      rcases resolve_withFunctions hwithin callee arguments with h | h
      · simp only [descend, h]
        cases session.resolve callee arguments with
        | error fault => exact .alike _
        | ok resolved => exact call_withFunctions resolved.1 .empty resolved.2 pending
      · rw [descend, h]
        exact .undefined callee pending session _
  | labelledCall callee arguments =>
      rcases resolveLabelled_withFunctions hwithin callee arguments with h | h
      · simp only [descend, h]
        cases session.resolveLabelled callee arguments with
        | error fault => exact .alike _
        | ok resolved => exact call_withFunctions resolved.1 .empty resolved.2 pending
      · rw [descend, h]
        exact .undefined callee pending session _
  | number | assign | binary | ifThen | ifElse | loop | println => exact .alike _

theorem resume_withFunctions (value : Int64) (task : Pending) (pending : List Pending) :
    AlikeUnlessUndefined table (resume value task pending session)
      (resume value task pending (session.withFunctions table)) := by
  cases task with
  | assign name =>
      have htarget : (session.withFunctions table).environment.target? name =
        session.environment.target? name := rfl
      simp only [resume, htarget]
      cases session.environment.target? name <;> exact .alike _
  | sequence rest => cases rest <;> exact .alike _
  | branch thenBody elseBody =>
      simp only [resume]
      split
      · exact .alike _
      · cases elseBody <;> exact .alike _
  | test condition body =>
      simp only [resume]
      split <;> exact .alike _
  | argument function bound parameter rest =>
      exact call_withFunctions function (bound.insert parameter value) rest pending
  | rightOperand | apply | again | leave | print => exact .alike _

theorem step_withFunctions {machine : Machine}
    (hwithin : machine.session.functions.Within table) :
    AlikeUnlessUndefined table machine.step (machine.withFunctions table).step := by
  obtain ⟨focus, pending, session⟩ := machine
  cases focus with
  | evaluate expr => exact descend_withFunctions hwithin expr pending
  | stuck => exact .alike _
  | outcome result =>
      cases pending with
      | nil => cases result <;> exact .alike _
      | cons task pending =>
          cases result with
          | ok value => exact resume_withFunctions value task pending
          | error fault => cases task <;> exact .alike _

/-- An outcome that is not for want of a function comes about with more functions too, by the same
steps. -/
theorem afterSteps_withFunctions {result : Except RunFault Int64}
    (hresult : ∀ callee, result ≠ .error (.undefinedFunction callee)) {steps : Nat}
    {machine : Machine} {after : Session} (hwithin : machine.session.functions.Within table)
    (h : afterSteps steps machine = ⟨.outcome result, [], after⟩) :
    afterSteps steps (machine.withFunctions table) =
      ⟨.outcome result, [], after.withFunctions table⟩ := by
  induction steps generalizing machine with
  | zero =>
      rw [afterSteps] at h ⊢
      rw [h]
      rfl
  | succ steps ih =>
      rw [afterSteps] at h ⊢
      have hfunctions := machine.functions_step
      have hstep := step_withFunctions hwithin
      generalize machine.step = fewer at h hfunctions hstep
      generalize (machine.withFunctions table).step = more at hstep ⊢
      cases hstep with
      | alike => exact ih (hfunctions ▸ hwithin) h
      | undefined callee pending session =>
          have hfocus := afterSteps_error_focus steps (.undefinedFunction callee) pending session
          rw [h] at hfocus
          exact absurd (Focus.outcome.inj hfocus) (hresult callee)

end

end Machine

namespace Session

variable {fuel : Nat} {program : Program} {session after : Session} {table : Table Function}

theorem evaluate_withFunctions {expr : Expr} {result : Except RunFault Int64}
    (hresult : ∀ callee, result ≠ .error (.undefinedFunction callee))
    (hwithin : session.functions.Within table)
    (h : evaluate fuel expr session = some (result, after)) :
    evaluate fuel expr (session.withFunctions table) =
      some (result, after.withFunctions table) := by
  obtain ⟨steps, hlt, hend⟩ := Machine.run_eq_some_iff.mp h
  exact Machine.run_eq_some_iff.mpr
    ⟨steps, hlt, Machine.afterSteps_withFunctions hresult hwithin hend⟩

end Session

/-! ## Functions first -/

namespace Program

variable {program first second : Program} {f : Function} {name : String}

/-- The definitions of global variables, in order. -/
def globals (program : Program) : Program :=
  program.filter (·.function?.isNone)

@[simp] theorem globals_cons_function (f : Function) (rest : Program) :
    globals (.function f :: rest) = globals rest := rfl

@[simp] theorem globals_cons_global (name : String) (value : Expr) (rest : Program) :
    globals (.global name value :: rest) = .global name value :: globals rest := rfl

/-- Of functions with distinct names, each is the last of its name. -/
theorem latest?_eq_some_iff (hnodup : (program.functions.map Function.name).Nodup) :
    program.latest? name = some f ↔ f ∈ program.functions ∧ f.name = name := by
  constructor
  · intro h
    exact ⟨List.mem_reverse.mp (List.mem_of_find?_eq_some h), name_of_latest? h⟩
  · rintro ⟨hmem, rfl⟩
    cases hlatest : program.latest? f.name with
    | none =>
        have hnone := List.find?_eq_none.mp hlatest f (List.mem_reverse.mpr hmem)
        exact absurd (beq_self_eq_true f.name) hnone
    | some g =>
        have hmem' := List.mem_reverse.mp (List.mem_of_find?_eq_some hlatest)
        rw [List.inj_on_of_nodup_map hnodup hmem' hmem (name_of_latest? hlatest)]

/-- Programs with the same functions, of distinct names, have the same last function of each
name. -/
theorem latest?_perm (hperm : first.functions.Perm second.functions)
    (hnodup : (second.functions.map Function.name).Nodup) (name : String) :
    first.latest? name = second.latest? name := by
  have hnodup' := (hperm.map Function.name).nodup_iff.mpr hnodup
  refine Option.ext fun f => ?_
  rw [latest?_eq_some_iff hnodup, latest?_eq_some_iff hnodup', hperm.mem_iff]

@[simp] theorem functions_map_function (functions : List Function) :
    Program.functions (functions.map .function) = functions := by
  induction functions with
  | nil => rfl
  | cons f rest ih => rw [List.map_cons, functions_cons_function, ih]

end Program

namespace Session

variable {fuel : Nat} {program : Program} {session mid after : Session} {table : Table Function}
  {fault : RunFault}

theorem TakesIn.append {first second : Program} (hfirst : TakesIn fuel first session mid)
    (hsecond : TakesIn fuel second mid after) : TakesIn fuel (first ++ second) session after := by
  induction hfirst with
  | nil => exact hsecond
  | cons hdefines _ ih => exact .cons hdefines (ih hsecond)

/-- To take in functions does nothing else. -/
theorem exists_takesIn_functions (fuel : Nat) (functions : List Function) (session : Session) :
    ∃ table, TakesIn fuel (functions.map .function) session (session.withFunctions table) := by
  induction functions generalizing session with
  | nil => exact ⟨session.functions, .nil session⟩
  | cons f rest ih =>
      obtain ⟨table, hrest⟩ := ih (session.defineFunction f)
      exact ⟨table, .cons (.function f session) hrest⟩

/-- A program that is taken in can be taken in without its functions where these are already
known. -/
theorem TakesIn.functions_first (h : TakesIn fuel program session after)
    (hwithin : session.functions.Within table)
    (hknown : ∀ f ∈ program.functions, table.get? f.name = some f) :
    TakesIn fuel program.globals (session.withFunctions table) (after.withFunctions table) ∧
      after.functions.Within table := by
  induction h with
  | nil session => exact ⟨.nil _, hwithin⟩
  | cons hfirst _ ih =>
      cases hfirst with
      | function f session =>
          refine ih ?_ fun g hg => hknown g (List.mem_cons_of_mem f hg)
          intro name g hget
          rw [defineFunction, Table.get?_insert] at hget
          split at hget
          next hname =>
            cases hget
            rw [hname]
            exact hknown f List.mem_cons_self
          next => exact hwithin name g hget
      | @global name value number _ mid hvalue =>
          have hmid : mid.functions.Within table := functions_of_evaluate hvalue ▸ hwithin
          obtain ⟨hrest, hafter⟩ := ih hmid hknown
          exact ⟨.cons (.global name (evaluate_withFunctions (by simp) hwithin hvalue)) hrest,
            hafter⟩

theorem StopsBehind.functions_first {taken : Program}
    (h : StopsBehind fuel taken program session fault after)
    (hfault : ∀ callee, fault ≠ .undefinedFunction callee)
    (hwithin : session.functions.Within table)
    (hknown : ∀ f ∈ program.functions, table.get? f.name = some f) :
    StopsBehind fuel taken.globals program.globals (session.withFunctions table) fault
      (after.withFunctions table) := by
  obtain ⟨name, value, rest, rfl, htaken, hvalue⟩ := h
  have hknown' : ∀ f ∈ taken.functions, table.get? f.name = some f := by
    intro f hf
    refine hknown f ?_
    rw [Program.functions, List.filterMap_append]
    exact List.mem_append_left _ hf
  obtain ⟨hglobals, hmid⟩ := htaken.functions_first hwithin hknown'
  refine ⟨name, value, Program.globals rest, List.filter_append _ _, hglobals, ?_⟩
  exact evaluate_withFunctions (fun callee h => hfault callee (Except.error.inj h)) hmid hvalue

theorem RunsMain.withFunctions {result : Except RunFault Int64}
    (h : RunsMain fuel session result after)
    (hresult : ∀ callee, result ≠ .error (.undefinedFunction callee))
    (hwithin : session.functions.Within table)
    (hmain : table.get? "main" = session.functions.get? "main") :
    RunsMain fuel (session.withFunctions table) result (after.withFunctions table) := by
  have hentry : (session.withFunctions table).entryPoint = session.entryPoint := by
    unfold entryPoint
    rw [← hmain]
    rfl
  cases h with
  | missing h => exact .missing (hentry.trans h)
  | body h hbody => exact .body (hentry.trans h) (evaluate_withFunctions hresult hwithin hbody)

/-- Functions that are new to a session can be taken in ahead of the program that defines them; what
the session then has is what it has after the program. -/
theorem exists_functions_ahead {functions : List Function} (fuel : Nat)
    (hperm : functions.Perm program.functions)
    (hnodup : (program.functions.map Function.name).Nodup)
    (hnew : ∀ f ∈ program.functions, session.functions.get? f.name = none) :
    ∃ table, TakesIn fuel (functions.map .function) session (session.withFunctions table) ∧
      session.functions.Within table ∧
      (∀ f ∈ program.functions, table.get? f.name = some f) ∧
      ∀ name, table.get? name = (program.latest? name).or (session.functions.get? name) := by
  obtain ⟨table, hfunctions⟩ := exists_takesIn_functions fuel functions session
  have hget : ∀ name, table.get? name =
      (program.latest? name).or (session.functions.get? name) := by
    intro name
    have hsame : Program.latest? (functions.map .function) name = program.latest? name :=
      Program.latest?_perm (by rwa [Program.functions_map_function]) hnodup name
    rw [← hsame]
    exact hfunctions.get?_eq name
  refine ⟨table, hfunctions, fun name f hf => ?_, fun f hf => ?_, hget⟩
  · rw [hget]
    cases hlatest : program.latest? name with
    | none => exact hf
    | some g =>
        obtain ⟨hmem, rfl⟩ := (Program.latest?_eq_some_iff hnodup).mp hlatest
        cases hf.symm.trans (hnew g hmem)
  · rw [hget, (Program.latest?_eq_some_iff hnodup).mpr ⟨hf, rfl⟩, Option.some_or]

end Session

/-- A program whose functions have names of their own, each of them new to the session, can as well
be run with its functions in front of its global variables, in any order, unless a function is
called that is not yet defined: it has the same outcome, prints the same and leaves the same
variables. -/
theorem functions_may_come_first (session : Session) (fuel : Nat) (program : Program)
    (functions : List Function) (hperm : functions.Perm program.functions)
    (hnodup : (program.functions.map Function.name).Nodup)
    (hnew : ∀ f ∈ program.functions, session.functions.get? f.name = none)
    (result : Except RunFault Int64) (after : Session)
    (hrun : Session.runProgram fuel program session = some (result, after))
    (hresult : ∀ callee, result ≠ .error (.undefinedFunction callee)) :
    ∃ after', Session.runProgram fuel (functions.map .function ++ program.globals) session =
        some (result, after') ∧
      after'.output = after.output ∧ after'.environment = after.environment := by
  obtain ⟨table, hfunctions, hwithin, hknown, hget⟩ :=
    Session.exists_functions_ahead fuel hperm hnodup hnew
  refine ⟨after.withFunctions table, ?_, rfl, rfl⟩
  rw [Session.runProgram_eq_some_iff] at hrun ⊢
  rcases hrun with ⟨fault, taken, hstops, rfl⟩ | ⟨mid, htaken, hmain⟩
  · have hfault : ∀ callee, fault ≠ .undefinedFunction callee :=
      fun callee h => hresult callee (congrArg Except.error h)
    obtain ⟨name, value, rest, hprogram, hglobals, hvalue⟩ :=
      hstops.functions_first hfault hwithin hknown
    refine .inl ⟨fault, functions.map .function ++ taken.globals,
      ⟨name, value, rest, ?_, hfunctions.append hglobals, hvalue⟩, rfl⟩
    rw [hprogram, List.append_assoc]
  · obtain ⟨hglobals, hmid⟩ := htaken.functions_first hwithin hknown
    have hsame : table.get? "main" = mid.functions.get? "main" :=
      (hget "main").trans (htaken.get?_eq "main").symm
    exact .inr ⟨mid.withFunctions table, hfunctions.append hglobals,
      hmain.withFunctions hresult hmid hsame⟩

/-- A global variable whose value is that of a call, with the called function behind `main`. -/
theorem functions_may_come_first_of_printing_initialiser : ∃ (program : Program)
    (functions : List Function) (after after' : Session),
    program = [.global "x" (.number 3),
      .function ⟨"f", ["n"], .block [.assign "x" (.number 4), .println (.symbol "n")]⟩,
      .global "y" (.call "f" [.number 7]),
      .function ⟨"main", [], .block [.binary .add (.symbol "x") (.symbol "y")]⟩] ∧
    functions.map Function.name = ["main", "f"] ∧
    Session.runProgram 20 program (.initial 5 (.buffer "")) = some (.ok 11, after) ∧
    Session.runProgram 20 (functions.map .function ++ program.globals)
      (.initial 5 (.buffer "")) = some (.ok 11, after') ∧
    after.output = .buffer "7\n" ∧ after'.output = after.output ∧
    after'.environment = after.environment := by
  obtain ⟨f, main, after, hrun, houtput, hf, hmain⟩ : ∃ (f main : Function) (after : Session),
      Session.runProgram 20 [.global "x" (.number 3), .function f,
        .global "y" (.call "f" [.number 7]), .function main] (.initial 5 (.buffer "")) =
          some (.ok 11, after) ∧ after.output = .buffer "7\n" ∧
      f = ⟨"f", ["n"], .block [.assign "x" (.number 4), .println (.symbol "n")]⟩ ∧
      main = ⟨"main", [], .block [.binary .add (.symbol "x") (.symbol "y")]⟩ :=
    ⟨_, _, _, rfl, rfl, rfl, rfl⟩
  obtain ⟨after', hrun', houtput', henvironment⟩ :=
    functions_may_come_first (.initial 5 (.buffer "")) 20
      [.global "x" (.number 3), .function f, .global "y" (.call "f" [.number 7]), .function main]
      [main, f] (.swap f main []) (by subst hf hmain; decide) (by intros; rfl) _ after hrun
      (by simp)
  subst hf hmain
  exact ⟨_, _, after, after', rfl, rfl, hrun, hrun', houtput, houtput', henvironment⟩

end IntScript
