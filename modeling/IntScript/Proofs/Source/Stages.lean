import IntScript.Proofs.Evaluation.DynamicScoping
import IntScript.Proofs.Evaluation.Steps
import IntScript.Proofs.Grammar.Blame

/-!
# Errors of reading and of evaluation

To run a source is to read it and then to evaluate what was read.  An error of the first stage is
about a place in the source, and nothing is evaluated then.  An error of the second stage has no
place, and it is an error of the evaluation however that was asked for.  Both are told apart by
their causes; their positions tell them apart too, unless the file has the name that is reserved.

* `Session.runSource_eq_error_iff` : which errors there are, and what becomes of the session.
* `error_stages_do_not_mix` : the main result.
-/

namespace IntScript

namespace Session

/-- The outcome of a computation as it is told, where faults are errors. -/
def told {α : Type} (run : Run α) : StateT Session Option (Except Error α) := do
  return (← run.run).mapError Error.ofRun

variable {α : Type} {fuel : Nat} {source file : String} {session after : Session} {error : Error}

theorem told_eq_error_iff {run : Run α} : told run session = some (.error error, after) ↔
    ∃ fault, run session = some (.error fault, after) ∧ error = .ofRun fault := by
  rw [told, stateBind_eq_some_iff]
  constructor
  · rintro ⟨outcome, mid, hrun, hend⟩
    cases outcome with
    | ok value => cases hend
    | error fault =>
        cases hend
        exact ⟨fault, hrun, rfl⟩
  · rintro ⟨fault, hrun, rfl⟩
    exact ⟨.error fault, after, hrun, rfl⟩

theorem runSource_of_error (h : parseProgram source file = .error error) :
    runSource fuel source file session = some (.error error, session) := by
  rw [runSource, h]
  rfl

theorem runSource_of_ok {program : Program} (h : parseProgram source file = .ok program) :
    runSource fuel source file = told (runProgram fuel program) := by
  rw [runSource, h]
  rfl

/-- Either the source cannot be read, and then nothing has happened to the session, or what is read
of it is evaluated and fails. -/
theorem runSource_eq_error_iff :
    runSource fuel source file session = some (.error error, after) ↔
      (parseProgram source file = .error error ∧ after = session) ∨
        ∃ program fault, parseProgram source file = .ok program ∧
          runProgram fuel program session = some (.error fault, after) ∧ error = .ofRun fault := by
  cases hparse : parseProgram source file with
  | error cause =>
      rw [runSource_of_error hparse]
      simp [eq_comm]
  | ok program =>
      rw [runSource_of_ok hparse, told_eq_error_iff]
      simp

end Session

/-- To run a source fails for what is no error of evaluation exactly if the source cannot be read as
a program.  Then nothing is evaluated or printed, and the error names the file, an offset of the
source and what stands there, as every error of reading does.  All errors of evaluation, whatever is
evaluated in whatever session, have no position.  So the errors that have none are those of
evaluation, unless the file has the name that is reserved for this. -/
theorem error_stages_do_not_mix (source file : String)
    (hsize : source.utf8ByteSize < UInt32.size) :
    (∀ session, (∃ fuel error after,
        Session.runSource fuel source file session = some (.error error, after) ∧
          error.cause.isRuntime = false) ↔
      ∃ error, parseProgram source file = .error error) ∧
    (∀ error, parseProgram source file = .error error →
      (∃ fault position, error = ⟨.parse fault, position⟩ ∧
        PointsInto source file fault position) ∧
      ∀ fuel session, Session.runSource fuel source file session = some (.error error, session)) ∧
    (∀ error, parseStatements source file = .error error →
      ∃ fault position, error = ⟨.parse fault, position⟩ ∧
        PointsInto source file fault position) ∧
    (∀ (operation : Session.Operation) fuel session error after,
      Session.told (operation.run fuel) session = some (.error error, after) →
        error.cause.isRuntime = true ∧ error.position = .absent) ∧
    ∀ fuel session error after,
      Session.runSource fuel source file session = some (.error error, after) →
        (error.position.isAbsent = true ↔
          error.cause.isRuntime = true ∨ file = Position.absentFile) := by
  have hread : ∀ error, parseProgram source file = .error error →
      ∃ fault position, error = ⟨.parse fault, position⟩ ∧
        PointsInto source file fault position :=
    fun _ => exists_pointsInto_of_parseProgram hsize
  refine ⟨fun session => ⟨?_, ?_⟩, fun error herror => ⟨hread error herror, fun fuel session =>
      Session.runSource_of_error herror⟩,
    fun error => exists_pointsInto_of_parseStatements hsize, ?_, ?_⟩
  · rintro ⟨fuel, error, after, hrun, hcause⟩
    rcases Session.runSource_eq_error_iff.mp hrun with ⟨herror, -⟩ | ⟨program, fault, -, -, rfl⟩
    · exact ⟨error, herror⟩
    · cases hcause
  · rintro ⟨error, herror⟩
    obtain ⟨fault, position, rfl, -⟩ := hread error herror
    exact ⟨0, _, session, Session.runSource_of_error herror, rfl⟩
  · intro operation fuel session error after htold
    obtain ⟨fault, -, rfl⟩ := Session.told_eq_error_iff.mp htold
    exact ⟨rfl, rfl⟩
  · intro fuel session error after hrun
    rcases Session.runSource_eq_error_iff.mp hrun with ⟨herror, -⟩ | ⟨program, fault, -, -, rfl⟩
    · obtain ⟨fault, position, rfl, hpoints⟩ := hread error herror
      rw [Position.isAbsent, hpoints.file_eq, beq_iff_eq]
      exact ⟨.inr, Or.rec nofun id⟩
    · exact ⟨fun _ => .inl rfl, fun _ => rfl⟩

/-- An assignment without its right side, where the line before it does not get to print, and a
division by zero, where it does. -/
theorem error_stages_do_not_mix_of_missing_operand_and_division :
    "define main() \x7b println(1); x = ; \x7d".utf8ByteSize < UInt32.size ∧
    (∃ fault position, fault.token = ";" ∧ position = ⟨32, "shell"⟩ ∧
      PointsInto "define main() \x7b println(1); x = ; \x7d" "shell" fault position ∧
      Session.runSource 50 "define main() \x7b println(1); x = ; \x7d" "shell"
        (.initial 1 (.buffer "")) =
          some (.error ⟨.parse fault, position⟩, .initial 1 (.buffer ""))) ∧
    "define main() \x7b println(1); 1 / 0; \x7d".utf8ByteSize < UInt32.size ∧
    ∃ error after, Session.runSource 50 "define main() \x7b println(1); 1 / 0; \x7d" "shell"
        (.initial 1 (.buffer "")) = some (.error error, after) ∧
      after.output = .buffer "1\n" ∧ error.position.isAbsent = true := by
  have hmissing : parseProgram "define main() \x7b println(1); x = ; \x7d" "shell" =
      .error ⟨.parse (.unexpected ";"), ⟨32, "shell"⟩⟩ := by cbv
  have hdivision : parseProgram "define main() \x7b println(1); 1 / 0; \x7d" "shell" =
      .ok [.function ⟨"main", [], .block [.println (.number 1),
        .binary .divide (.number 1) (.number 0)]⟩] := by cbv
  obtain ⟨-, hread, -⟩ := error_stages_do_not_mix "define main() \x7b println(1); x = ; \x7d"
    "shell" (by decide)
  obtain ⟨-, -, -, -, habsent⟩ := error_stages_do_not_mix
    "define main() \x7b println(1); 1 / 0; \x7d" "shell" (by decide)
  obtain ⟨⟨fault, position, heq, hpoints⟩, hrun⟩ := hread _ hmissing
  cases heq
  obtain ⟨after, hfails, houtput⟩ : ∃ after,
      Session.runSource 50 "define main() \x7b println(1); 1 / 0; \x7d" "shell"
        (.initial 1 (.buffer "")) = some (.error (.ofRun .divisionByZero), after) ∧
      after.output = .buffer "1\n" := by
    rw [Session.runSource_of_ok hdivision]
    exact ⟨_, rfl, rfl⟩
  exact ⟨by decide, ⟨_, _, rfl, rfl, hpoints, hrun 50 _⟩, by decide, _, after, hfails, houtput,
    (habsent 50 _ _ _ hfails).mpr (.inl rfl)⟩

end IntScript
