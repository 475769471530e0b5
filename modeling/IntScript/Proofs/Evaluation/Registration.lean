import IntScript.Proofs.Evaluation.Steps

/-!
# Taking in definitions

The definitions of a program are taken in one after another, up to the first that fails.  Only the
value of a global variable can fail.  An evaluation leaves the functions as they are, so the
functions of a session are those it has taken in, and of several with one name it is the last.

* `Session.register_eq_ok_iff`, `Session.register_eq_error_iff` : what becomes of a program that is
  taken in, and of one that is not.
* `Session.runProgram_eq_some_iff` : `main` is run exactly if all definitions are taken in.
* `Session.TakesIn.get?_eq` : the functions of a session that has taken in a program.
-/

namespace IntScript

/-! ## The functions of a program -/

/-- The function that is defined, unless it is a global variable. -/
def Definition.function? : Definition → Option Function
  | .function f => some f
  | .global .. => none

namespace Program

/-- The functions that a program defines, in order. -/
def functions (program : Program) : List Function :=
  program.filterMap Definition.function?

/-- The last function of a name that a program defines. -/
def latest? (program : Program) (name : String) : Option Function :=
  program.functions.reverse.find? (·.name == name)

variable {program first second : Program} {f : Function} {name : String}

@[simp] theorem functions_cons_function (f : Function) (rest : Program) :
    functions (.function f :: rest) = f :: functions rest := rfl

@[simp] theorem functions_cons_global (name : String) (value : Expr) (rest : Program) :
    functions (.global name value :: rest) = functions rest := rfl

@[simp] theorem latest?_nil (name : String) : latest? [] name = none := rfl

theorem latest?_append (first second : Program) (name : String) :
    latest? (first ++ second) name = (latest? second name).or (latest? first name) := by
  rw [latest?, functions, List.filterMap_append, List.reverse_append, List.find?_append]
  rfl

theorem latest?_cons (definition : Definition) (rest : Program) (name : String) :
    latest? (definition :: rest) name = (latest? rest name).or (latest? [definition] name) :=
  latest?_append [definition] rest name

theorem latest?_function (f : Function) (name : String) :
    latest? [.function f] name = if name = f.name then some f else none := by
  by_cases h : name = f.name
  · simp [latest?, functions, Definition.function?, h]
  · simp [latest?, functions, Definition.function?, h, Ne.symm h]

@[simp] theorem latest?_global (name : String) (value : Expr) (other : String) :
    latest? [.global name value] other = none := rfl

theorem name_of_latest? (h : program.latest? name = some f) : f.name = name := by
  have hname := List.find?_some h
  exact eq_of_beq hname

end Program

/-! ## Evaluations leave the functions as they are -/

namespace Machine

theorem Effect.functions_eq {before after : Session} (h : Effect before after) :
    after.functions = before.functions := by
  cases h <;> rfl

theorem functions_step (machine : Machine) :
    machine.step.session.functions = machine.session.functions :=
  machine.continues_step.effect.functions_eq

theorem functions_afterSteps (steps : Nat) (machine : Machine) :
    (afterSteps steps machine).session.functions = machine.session.functions := by
  induction steps generalizing machine with
  | zero => rfl
  | succ steps ih => exact (ih machine.step).trans machine.functions_step

end Machine

namespace Session

variable {fuel : Nat} {program : Program} {session mid after : Session} {fault : RunFault}

theorem functions_of_evaluate {expr : Expr} {result : Except RunFault Int64}
    (h : evaluate fuel expr session = some (result, after)) :
    after.functions = session.functions := by
  obtain ⟨steps, -, hend⟩ := Machine.run_eq_some_iff.mp h
  have hfunctions := Machine.functions_afterSteps steps ⟨.evaluate expr, [], session⟩
  rwa [hend] at hfunctions

/-! ## Programs that are taken in -/

/-- The definition is taken in, and makes the one session of the other. -/
inductive Defines (fuel : Nat) : Definition → Session → Session → Prop where
  | function (f : Function) (session : Session) :
      Defines fuel (.function f) session (session.defineFunction f)
  | global (name : String) {value : Expr} {number : Int64} {session mid : Session}
      (hvalue : evaluate fuel value session = some (.ok number, mid)) :
      Defines fuel (.global name value) session (mid.defineGlobal name number)

/-- All definitions of the program are taken in, one after another. -/
inductive TakesIn (fuel : Nat) : Program → Session → Session → Prop where
  | nil (session : Session) : TakesIn fuel [] session session
  | cons {definition : Definition} {rest : Program} {session mid after : Session}
      (hfirst : Defines fuel definition session mid) (hrest : TakesIn fuel rest mid after) :
      TakesIn fuel (definition :: rest) session after

/-- The program is taken in up to a global variable whose value cannot be computed, and what the
attempt leaves is left; `taken` are the definitions before that. -/
inductive StopsBehind (fuel : Nat) (taken program : Program) (session : Session)
    (fault : RunFault) (after : Session) : Prop where
  | intro (name : String) (value : Expr) (rest : Program) {mid : Session}
      (hprogram : program = taken ++ .global name value :: rest)
      (htaken : TakesIn fuel taken session mid)
      (hvalue : evaluate fuel value mid = some (.error fault, after))

theorem define_eq_ok_iff {definition : Definition} :
    define fuel definition session = some (.ok (), after) ↔
      Defines fuel definition session after := by
  constructor
  · intro h
    cases definition with
    | function f =>
        cases h
        exact .function f session
    | global name value =>
        rw [define, bind_eq_some_iff] at h
        rcases h with ⟨_, -, h⟩ | ⟨number, mid, hvalue, h⟩
        · cases h
        · cases h
          exact .global name hvalue
  · intro h
    cases h with
    | function f => rfl
    | global name hvalue => exact bind_eq_some_iff.mpr (.inr ⟨_, _, hvalue, rfl⟩)

theorem define_eq_error_iff {definition : Definition} :
    define fuel definition session = some (.error fault, after) ↔
      ∃ name value, definition = .global name value ∧
        evaluate fuel value session = some (.error fault, after) := by
  constructor
  · intro h
    cases definition with
    | function f => cases h
    | global name value =>
        rw [define, bind_eq_some_iff] at h
        rcases h with ⟨_, hvalue, h⟩ | ⟨number, mid, -, h⟩
        · cases h
          exact ⟨name, value, rfl, hvalue⟩
        · cases h
  · rintro ⟨name, value, rfl, hvalue⟩
    exact bind_eq_some_iff.mpr (.inl ⟨fault, hvalue, rfl⟩)

theorem register_eq_ok_iff :
    register fuel program session = some (.ok (), after) ↔ TakesIn fuel program session after := by
  constructor
  · intro h
    induction program generalizing session with
    | nil =>
        cases h
        exact .nil _
    | cons definition rest ih =>
        rcases bind_eq_some_iff.mp h with ⟨_, -, h⟩ | ⟨⟨⟩, mid, hdefine, hrest⟩
        · cases h
        · exact .cons (define_eq_ok_iff.mp hdefine) (ih hrest)
  · intro h
    induction h with
    | nil => rfl
    | cons hfirst _ ih =>
        exact bind_eq_some_iff.mpr (.inr ⟨(), _, define_eq_ok_iff.mpr hfirst, ih⟩)

theorem register_eq_error_iff :
    register fuel program session = some (.error fault, after) ↔
      ∃ taken, StopsBehind fuel taken program session fault after := by
  constructor
  · intro h
    induction program generalizing session with
    | nil => cases h
    | cons definition rest ih =>
        rcases bind_eq_some_iff.mp h with ⟨_, hdefine, h⟩ | ⟨⟨⟩, mid, hdefine, hrest⟩
        · cases h
          obtain ⟨name, value, rfl, hvalue⟩ := define_eq_error_iff.mp hdefine
          exact ⟨[], name, value, rest, rfl, .nil session, hvalue⟩
        · obtain ⟨taken, name, value, behind, rfl, htaken, hvalue⟩ := ih hrest
          exact ⟨definition :: taken, name, value, behind, rfl,
            .cons (define_eq_ok_iff.mp hdefine) htaken, hvalue⟩
  · rintro ⟨taken, name, value, rest, rfl, htaken, hvalue⟩
    induction htaken with
    | nil =>
        refine bind_eq_some_iff.mpr (.inl ⟨fault, ?_, rfl⟩)
        exact define_eq_error_iff.mpr ⟨name, value, rfl, hvalue⟩
    | cons hfirst _ ih =>
        exact bind_eq_some_iff.mpr (.inr ⟨(), _, define_eq_ok_iff.mpr hfirst, ih hvalue⟩)

/-! ## Programs that are run -/

/-- What comes of the function that a program starts with. -/
inductive RunsMain (fuel : Nat) (session : Session) :
    Except RunFault Int64 → Session → Prop where
  | missing {fault : RunFault} (hentry : entryPoint session = .error fault) :
      RunsMain fuel session (.error fault) session
  | body {main : Function} {result : Except RunFault Int64} {after : Session}
      (hentry : entryPoint session = .ok main)
      (hbody : evaluate fuel main.body session = some (result, after)) :
      RunsMain fuel session result after

theorem runsMain_iff {result : Except RunFault Int64} :
    (do
      let main ← liftM (entryPoint (← get))
      evaluate fuel main.body : Run Int64) session = some (result, after) ↔
      RunsMain fuel session result after := by
  show (liftM (entryPoint session) >>= fun main => evaluate fuel main.body : Run Int64) session =
    some (result, after) ↔ _
  cases hentry : entryPoint session with
  | error fault =>
      show some (Except.error fault, session) = some (result, after) ↔ _
      constructor
      · intro h
        cases h
        exact .missing hentry
      · intro h
        cases h with
        | missing hmissing =>
            cases hentry.symm.trans hmissing
            rfl
        | body hmain => cases hentry.symm.trans hmain
  | ok main =>
      show evaluate fuel main.body session = some (result, after) ↔ _
      constructor
      · exact .body hentry
      · intro h
        cases h with
        | missing hmissing => cases hentry.symm.trans hmissing
        | body hmain hbody =>
            cases hentry.symm.trans hmain
            exact hbody

theorem runProgram_eq_some_iff {result : Except RunFault Int64} :
    runProgram fuel program session = some (result, after) ↔
      (∃ fault taken, StopsBehind fuel taken program session fault after ∧
        result = .error fault) ∨
      ∃ mid, TakesIn fuel program session mid ∧ RunsMain fuel mid result after := by
  rw [runProgram, bind_eq_some_iff]
  constructor
  · rintro (⟨fault, hregister, rfl⟩ | ⟨⟨⟩, mid, hregister, hmain⟩)
    · obtain ⟨taken, hstops⟩ := register_eq_error_iff.mp hregister
      exact .inl ⟨fault, taken, hstops, rfl⟩
    · exact .inr ⟨mid, register_eq_ok_iff.mp hregister, runsMain_iff.mp hmain⟩
  · rintro (⟨fault, taken, hstops, rfl⟩ | ⟨mid, htaken, hmain⟩)
    · exact .inl ⟨fault, register_eq_error_iff.mpr ⟨taken, hstops⟩, rfl⟩
    · exact .inr ⟨(), mid, register_eq_ok_iff.mpr htaken, runsMain_iff.mpr hmain⟩

/-! ## The functions of a session -/

theorem Defines.get?_eq {definition : Definition} (h : Defines fuel definition session after)
    (name : String) : after.functions.get? name =
      (Program.latest? [definition] name).or (session.functions.get? name) := by
  cases h with
  | function f =>
      rw [Program.latest?_function, defineFunction, Table.get?_insert]
      split <;> rfl
  | global _ hvalue =>
      rw [Program.latest?_global, Option.none_or, ← functions_of_evaluate hvalue]
      rfl

/-- A session that has taken in a program has the last of its functions of each name. -/
theorem TakesIn.get?_eq (h : TakesIn fuel program session after) (name : String) :
    after.functions.get? name = (program.latest? name).or (session.functions.get? name) := by
  induction h with
  | nil => rfl
  | @cons definition rest _ _ _ hfirst _ ih =>
      rw [ih, hfirst.get?_eq, Program.latest?_cons _ rest, Option.or_assoc]

end Session

end IntScript
