import Mathlib
import IntScript.Proofs.Evaluation.DynamicScoping

/-!
# Where output goes does not matter

A destination takes printed values and gives nothing back, so that computations which differ in it
only are the same in everything else.  Which values are printed, and in which order, is therefore a
matter of the computation alone: `Machine.printed` reads it off the steps of an evaluation, and
`Session.printedByAll` off those of the evaluations that operations consist of.  A buffer and the
console get the same text of them, one line for each, and the values can be read back from it.

* `Machine.step_withOutput` : one step, and `Machine.run_withOutput` : a whole run.
* `Session.Records` : what holds of evaluations holds of computations made of them.
* `Text.values?_record` : the text of values tells the values.
* `Session.printedApart` : the values printed between one taking of text and the next, and
  `Session.serveAll_eq` : what is taken out of a buffer is their text.
* `output_does_not_matter` : the main result.
-/

namespace IntScript

/-! ## The text of values -/

namespace Text

/-- Values, each on a line of its own. -/
def record (values : List Int64) : String :=
  String.join (values.map fun value => decimal value ++ "\n")

@[simp] theorem record_nil : record [] = "" := rfl

theorem record_cons (value : Int64) (values : List Int64) :
    record (value :: values) = decimal value ++ "\n" ++ record values := by
  simp [record]

theorem record_append (first second : List Int64) :
    record (first ++ second) = record first ++ record second := by
  simp [record]

theorem join_map_record (groups : List (List Int64)) :
    String.join (groups.map record) = record groups.flatten := by
  induction groups with
  | nil => rfl
  | cons group groups ih =>
      rw [List.map_cons, String.join_cons, ih, List.flatten_cons, record_append]

/-- The text of groups of values in parts, of which the last one stands alone. -/
theorem join_append_of_records {first : List Int64} {others : List (List Int64)}
    {texts : List String} {before rest : String}
    (h : texts ++ [rest] = (before ++ record first) :: others.map record) :
    String.join texts ++ rest = before ++ record (first ++ others.flatten) := by
  calc String.join texts ++ rest
      = String.join (texts ++ [rest]) := by simp
    _ = before ++ record first ++ record others.flatten := by
      rw [h, String.join_cons, join_map_record]
    _ = before ++ record (first ++ others.flatten) := by
      rw [record_append, String.append_assoc]

theorem decimal_eq_repr (value : Int64) : decimal value = value.toInt.repr := by
  cases h : value.toInt with
  | ofNat n => simp [decimal, decimalNat, h, Int.repr, Nat.repr]
  | negSucc n => simp [decimal, decimalNat, h, Int.repr, Nat.repr]

/-- The value in a line, which must be a decimal number in the range of values. -/
def value? (line : String) : Option Int64 :=
  line.toInt?.bind fun number =>
    if (Int64.ofInt number).toInt = number then some (.ofInt number) else none

theorem value?_decimal (value : Int64) : value? (decimal value) = some value := by
  simp [value?, decimal_eq_repr, Int.toInt?_repr]

/-- The values in the lines of a text, split at the line breaks.  What comes behind the last of
them is no line. -/
def values? (text : String) : Option (List Int64) :=
  (text.toList.splitOn '\n').dropLast.mapM fun line => value? (String.ofList line)

theorem splitOn_record (values : List Int64) :
    (record values).toList.splitOn '\n' =
      values.map (fun value => (decimal value).toList) ++ [[]] := by
  induction values with
  | nil => simp [record]
  | cons value values ih =>
      have htext : (record (value :: values)).toList =
          (decimal value).toList ++ '\n' :: (record values).toList := by
        simp [record_cons]
      rw [htext, List.splitOn_append_cons_self_of_not_mem (lineBreak_notMem_decimal value), ih]
      rfl

/-- The text of values tells the values. -/
theorem values?_record (values : List Int64) : values? (record values) = some values := by
  rw [values?, splitOn_record, List.dropLast_concat]
  induction values with
  | nil => rfl
  | cons value values ih => simp [ih, value?_decimal]

end Text

namespace Output

/-- Prints values one after the other. -/
def printAll (values : List Int64) (output : Output) : Output :=
  values.foldl (fun output value => output.print value) output

theorem printAll_append (first second : List Int64) (output : Output) :
    output.printAll (first ++ second) = (output.printAll first).printAll second :=
  List.foldl_append

theorem printAll_eq_write (values : List Int64) (output : Output) :
    output.printAll values = output.write (Text.record values) := by
  induction values generalizing output with
  | nil => exact output.write_empty.symm
  | cons value values ih =>
      calc output.printAll (value :: values)
          = (output.print value).printAll values := rfl
        _ = (output.write (Text.decimal value ++ "\n")).write (Text.record values) := by
          rw [ih, print_eq_write]
        _ = output.write (Text.record (value :: values)) := by
          rw [write_write, Text.record_cons]

end Output

/-! ## Steps -/

/-- The session with its output going elsewhere. -/
def Session.withOutput (output : Output) (session : Session) : Session :=
  { session with output }

namespace Machine

/-- The machine with its output going elsewhere. -/
def withOutput (output : Output) (machine : Machine) : Machine :=
  { machine with session := machine.session.withOutput output }

/-- The value that the next step prints, if it prints one. -/
def printing? : Machine → Option Int64
  | ⟨.outcome (.ok value), .print :: _, _⟩ => some value
  | _ => none

/-- The values that are printed within so many steps, in the order of printing. -/
def printed : (steps : Nat) → Machine → List Int64
  | 0, _ => []
  | steps + 1, machine => machine.printing?.toList ++ printed steps machine.step

section

variable (output : Output) (pending : List Pending) (session : Session)

theorem call_withOutput (function : Function) (bound : Table Int64) (arguments : Arguments) :
    call function bound arguments pending (session.withOutput output) =
      (call function bound arguments pending session).withOutput output := by
  have hfull : (session.withOutput output).isFull = session.isFull := rfl
  unfold call
  rw [hfull]
  cases arguments with
  | cons argument rest => rfl
  | nil => cases session.isFull <;> rfl

theorem descend_withOutput (expr : Expr) :
    descend expr pending (session.withOutput output) =
      (descend expr pending session).withOutput output := by
  cases expr with
  | symbol name =>
      have hlookup : (session.withOutput output).environment.lookup name =
        session.environment.lookup name := rfl
      simp only [descend, hlookup]
      cases session.environment.lookup name <;> rfl
  | block body => cases body <;> rfl
  | call callee arguments =>
      have hresolve : (session.withOutput output).resolve callee arguments =
        session.resolve callee arguments := rfl
      simp only [descend, hresolve]
      cases session.resolve callee arguments with
      | error fault => rfl
      | ok resolved => exact call_withOutput output pending session resolved.1 .empty resolved.2
  | labelledCall callee arguments =>
      have hresolve : (session.withOutput output).resolveLabelled callee arguments =
        session.resolveLabelled callee arguments := rfl
      simp only [descend, hresolve]
      cases session.resolveLabelled callee arguments with
      | error fault => rfl
      | ok resolved => exact call_withOutput output pending session resolved.1 .empty resolved.2
  | _ => rfl

/-- Only the task of printing does anything about the destination. -/
theorem resume_withOutput (value : Int64) (task : Pending) :
    resume value task pending (session.withOutput output) =
      (resume value task pending session).withOutput
        (output.printAll (printing? ⟨.outcome (.ok value), task :: pending, session⟩).toList) := by
  cases task with
  | assign name =>
      have htarget : (session.withOutput output).environment.target? name =
        session.environment.target? name := rfl
      simp only [resume, htarget]
      cases session.environment.target? name <;> rfl
  | sequence rest => cases rest <;> rfl
  | branch thenBody elseBody =>
      simp only [resume]
      split
      · rfl
      · cases elseBody <;> rfl
  | test condition body =>
      simp only [resume]
      split <;> rfl
  | argument function bound parameter rest =>
      exact call_withOutput output pending session function (bound.insert parameter value) rest
  | _ => rfl

end

/-- One step. -/
theorem step_withOutput (output : Output) (machine : Machine) :
    (machine.withOutput output).step =
      machine.step.withOutput (output.printAll machine.printing?.toList) := by
  obtain ⟨focus, pending, session⟩ := machine
  cases focus with
  | evaluate expr => exact descend_withOutput output pending session expr
  | stuck => rfl
  | outcome result =>
      cases pending with
      | nil => cases result <;> rfl
      | cons task pending =>
          cases result with
          | ok value => exact resume_withOutput output pending session value task
          | error fault => cases task <;> rfl

/-- An evaluation that is over prints nothing. -/
theorem printed_outcome (steps : Nat) (result : Except RunFault Int64) (session : Session) :
    printed steps ⟨.outcome result, [], session⟩ = [] := by
  induction steps with
  | zero => rfl
  | succ steps ih => cases result <;> exact ih

/-- Any number of steps, of an evaluation that need not come to an end. -/
theorem afterSteps_withOutput (output : Output) (steps : Nat) (machine : Machine) :
    afterSteps steps (machine.withOutput output) =
      (afterSteps steps machine).withOutput (output.printAll (machine.printed steps)) := by
  induction steps generalizing output machine with
  | zero => rfl
  | succ steps ih =>
      rw [afterSteps, step_withOutput, ih, ← Output.printAll_append]
      rfl

/-- A whole run.  What it prints goes to the destination, and nothing else does. -/
theorem run_withOutput (output : Output) (fuel : Nat) (machine : Machine) :
    (machine.withOutput output).run fuel = (machine.run fuel).map fun ended =>
      (ended.1, ended.2.withOutput (output.printAll (machine.printed fuel))) := by
  induction fuel generalizing output machine with
  | zero => rfl
  | succ fuel ih =>
      have hstep := ih (output.printAll machine.printing?.toList) machine.step
      rw [← step_withOutput, ← Output.printAll_append] at hstep
      obtain ⟨focus, pending, session⟩ := machine
      cases focus with
      | evaluate expr => exact hstep
      | stuck => rfl
      | outcome result =>
          cases pending with
          | cons task pending => exact hstep
          | nil =>
              rw [printed_outcome]
              rfl

end Machine

/-! ## Computations -/

namespace Session

section

variable {α β : Type}

/-- What a computation prints and then one that goes on from where it ends, if it ends. -/
def printedBoth (run : StateT Session Option α) (first : Session → List Int64)
    (next : α → Session → List Int64) (session : Session) : List Int64 :=
  first session ++
    match run session with
    | some (value, after) => next value after
    | none => []

/-- Nothing more is printed after a fault. -/
def onSuccess (next : α → Session → List Int64) : Except RunFault α → Session → List Int64
  | .ok value => next value
  | .error _ => fun _ => []

/-- A computation does the same whatever the destination, and these values go there. -/
def Records (run : StateT Session Option α) (values : Session → List Int64) : Prop :=
  ∀ (session : Session) (output : Output),
    run (session.withOutput output) = (run session).map fun ended =>
      (ended.1, ended.2.withOutput (output.printAll (values session)))

namespace Records

variable {run : StateT Session Option α} {values : Session → List Int64}

theorem andThen {next : α → StateT Session Option β} {values' : α → Session → List Int64}
    (hfirst : Records run values) (hnext : ∀ value, Records (next value) (values' value)) :
    Records (run >>= next) (printedBoth run values values') := by
  intro session output
  simp only [Bind.bind, StateT.bind, printedBoth]
  rw [hfirst session output]
  cases run session with
  | none => rfl
  | some ended =>
      show next ended.1 (ended.2.withOutput _) = (next ended.1 ended.2).map _
      rw [hnext ended.1, Output.printAll_append]

theorem pure (value : α) :
    Records (Pure.pure value : StateT Session Option α) (fun _ => []) :=
  fun _ _ => rfl

theorem bind {run : Run α} {next : α → Run β} {values' : α → Session → List Int64}
    (hfirst : Records run.run values) (hnext : ∀ value, Records (next value).run (values' value)) :
    Records (run >>= next).run (printedBoth run.run values (onSuccess values')) :=
  hfirst.andThen fun outcome => by
    cases outcome with
    | ok value => exact hnext value
    | error fault => exact pure (Except.error fault)

/-- A second computation that prints nothing. -/
theorem andThen_nil {next : α → StateT Session Option β} (hfirst : Records run values)
    (hnext : ∀ value, Records (next value) fun _ => []) : Records (run >>= next) values := by
  have hnil : printedBoth run values (fun _ _ => []) = values := by
    funext session
    simp only [printedBoth]
    cases run session <;> simp
  rw [← hnil]
  exact hfirst.andThen hnext

theorem bind_nil {run : Run α} {next : α → Run β} (hfirst : Records run.run values)
    (hnext : ∀ value, Records (next value).run fun _ => []) :
    Records (run >>= next).run values :=
  hfirst.andThen_nil fun outcome => by
    cases outcome with
    | ok value => exact hnext value
    | error fault => exact pure (Except.error fault)

theorem modify {change : Session → Session}
    (h : ∀ session output, change (session.withOutput output) =
      (change session).withOutput output) :
    Records (modify change : Run Unit).run (fun _ => []) := by
  intro session output
  show some (Except.ok (), change (session.withOutput output)) = _
  rw [h]
  rfl

end Records

end

/-- What an evaluation prints. -/
def printedByEvaluate (fuel : Nat) (expr : Expr) (session : Session) : List Int64 :=
  Machine.printed fuel ⟨.evaluate expr, [], session⟩

/-- What is printed while a definition is taken in. -/
def printedByDefine (fuel : Nat) : Definition → Session → List Int64
  | .function _ => fun _ => []
  | .global _ value => printedByEvaluate fuel value

/-- What is printed while definitions are taken in. -/
def printedByRegister (fuel : Nat) : Program → Session → List Int64
  | [] => fun _ => []
  | definition :: rest =>
    printedBoth (define fuel definition).run (printedByDefine fuel definition)
      (onSuccess fun _ => printedByRegister fuel rest)

/-- What a program prints. -/
def printedByRunProgram (fuel : Nat) (program : Program) : Session → List Int64 :=
  printedBoth (register fuel program).run (printedByRegister fuel program)
    (onSuccess fun _ session =>
      match entryPoint session with
      | .ok main => printedByEvaluate fuel main.body session
      | .error _ => [])

/-- What is printed by an operation. -/
def Operation.printed (fuel : Nat) : Operation → Session → List Int64
  | register program => printedByRegister fuel program
  | runProgram program => printedByRunProgram fuel program
  | evaluate expr => printedByEvaluate fuel expr

/-- What is printed by operations that are performed in order. -/
def printedByAll (fuel : Nat) : List Operation → Session → List Int64
  | [] => fun _ => []
  | operation :: rest =>
    printedBoth (operation.run fuel).run (operation.printed fuel) (fun _ => printedByAll fuel rest)

namespace Records

theorem evaluate (fuel : Nat) (expr : Expr) :
    Records (Session.evaluate fuel expr).run (printedByEvaluate fuel expr) :=
  fun session output => Machine.run_withOutput output fuel ⟨.evaluate expr, [], session⟩

theorem define (fuel : Nat) (definition : Definition) :
    Records (Session.define fuel definition).run (printedByDefine fuel definition) := by
  cases definition with
  | function f => exact modify fun session output => rfl
  | global name value =>
      exact (evaluate fuel value).bind_nil fun number => modify fun session output => rfl

theorem register (fuel : Nat) (program : Program) :
    Records (Session.register fuel program).run (printedByRegister fuel program) := by
  induction program with
  | nil => exact pure (Except.ok ())
  | cons definition rest ih => exact (define fuel definition).bind fun _ => ih

theorem runProgram (fuel : Nat) (program : Program) :
    Records (Session.runProgram fuel program).run (printedByRunProgram fuel program) := by
  refine (register fuel program).bind fun _ session output => ?_
  have hentry : entryPoint (session.withOutput output) = entryPoint session := rfl
  show (liftM (entryPoint (session.withOutput output)) >>= fun main =>
    Session.evaluate fuel main.body : Run Int64) (session.withOutput output) =
      Option.map _ ((liftM (entryPoint session) >>= fun main =>
        Session.evaluate fuel main.body : Run Int64) session)
  rw [hentry]
  cases entryPoint session with
  | ok main => exact evaluate fuel main.body session output
  | error fault => rfl

theorem operation (fuel : Nat) (operation : Operation) :
    Records (operation.run fuel).run (operation.printed fuel) := by
  cases operation with
  | register program => exact (register fuel program).bind_nil fun _ => pure (Except.ok none)
  | runProgram program =>
      exact (runProgram fuel program).bind_nil fun value => pure (Except.ok (some value))
  | evaluate expr =>
      exact (evaluate fuel expr).bind_nil fun value => pure (Except.ok (some value))

theorem performAll (fuel : Nat) (operations : List Operation) :
    Records (performAll fuel operations) (printedByAll fuel operations) := by
  induction operations with
  | nil => exact pure []
  | cons first rest ih =>
      exact (operation fuel first).andThen fun outcome =>
        ih.andThen_nil fun outcomes => pure (outcome :: outcomes)

end Records

/-! ## Taking text out of a buffer -/

/-- What can be asked between operations, too. -/
inductive Request where
  | perform (operation : Operation)
  /-- Take the text out of the buffer. -/
  | take

/-- The operation that is asked for. -/
def Request.operation? : Request → Option Operation
  | perform operation => some operation
  | take => none

/-- Serves requests in order: the outcomes of the operations, and the texts taken. -/
def serveAll (fuel : Nat) : List Request →
    StateT Session Option (List (Except RunFault (Option Int64)) × List String)
  | [] => return ([], [])
  | .perform operation :: rest => do
    let outcome ← (operation.run fuel).run
    let (outcomes, texts) ← serveAll fuel rest
    return (outcome :: outcomes, texts)
  | .take :: rest => do
    let (text, output) := (← get).output.take
    set ((← get).withOutput output)
    let (outcomes, texts) ← serveAll fuel rest
    return (outcomes, text :: texts)

/-- The values printed up to the first taking, and for each taking those printed from then on, up to
the next one or the end. -/
def printedApart (fuel : Nat) : List Request → Session → List Int64 × List (List Int64)
  | [], _ => ([], [])
  | .perform operation :: rest, session =>
    let (first, others) :=
      match (operation.run fuel).run session with
      | some (_, after) => printedApart fuel rest after
      | none => ([], [])
    (operation.printed fuel session ++ first, others)
  | .take :: rest, session =>
    let (first, others) := printedApart fuel rest session
    ([], first :: others)

end Session

/-- What is taken out of a destination, text by text, and what becomes of it, if `first` are the
values printed up to the first taking and `others` those printed from each taking on.  A buffer
gives what was printed since the last taking, the first time with what it held before. -/
inductive Output.TakenApart (first : List Int64) (others : List (List Int64)) :
    Output → List String → Output → Prop
  | buffer {captured rest : String} {texts : List String}
      (h : texts ++ [rest] = (captured ++ Text.record first) :: others.map Text.record) :
      TakenApart first others (.buffer captured) texts (.buffer rest)
  | console (written : String) :
      TakenApart first others (.console written) (others.map fun _ => "")
        (.console (written ++ Text.record (first ++ others.flatten)))
  | silent : TakenApart first others .silent (others.map fun _ => "") .silent

namespace Output.TakenApart

variable {first values : List Int64} {others : List (List Int64)} {output left : Output}
  {texts : List String}

theorem refl (output : Output) : TakenApart [] [] output [] output := by
  cases output with
  | buffer captured => exact buffer (by simp)
  | console written =>
      have hempty : TakenApart [] [] (.console written) [] _ := console written
      simpa using hempty
  | silent => exact silent

/-- Nothing is taken, and what is printed first belongs to what is taken first. -/
theorem print (h : TakenApart first others (output.printAll values) texts left) :
    TakenApart (values ++ first) others output texts left := by
  rw [printAll_eq_write] at h
  cases output with
  | buffer captured =>
      cases h with
      | buffer h => exact buffer (by rw [h, Text.record_append, String.append_assoc])
  | console written =>
      cases h with
      | console =>
          have happend : TakenApart (values ++ first) others (.console written) _ _ :=
            console written
          rwa [List.append_assoc, Text.record_append, ← String.append_assoc] at happend
  | silent =>
      cases h with
      | silent => exact silent

theorem take (h : TakenApart first others output.take.2 texts left) :
    TakenApart [] (first :: others) output (output.take.1 :: texts) left := by
  cases output with
  | buffer captured =>
      rw [take_buffer] at h ⊢
      cases h with
      | buffer h => exact buffer (by simp [h])
  | console written =>
      rw [take_console] at h ⊢
      cases h with
      | console => exact console written
  | silent =>
      rw [take_silent] at h ⊢
      cases h with
      | silent => exact silent

end Output.TakenApart

namespace Session

section

variable (fuel : Nat) (operation : Operation) (operations : List Operation)
  (requests : List Request) (session : Session)

theorem performAll_cons :
    performAll fuel (operation :: operations) session =
      ((operation.run fuel).run session).bind fun ended =>
        (performAll fuel operations ended.2).map fun rest =>
          (ended.1 :: rest.1, rest.2) := by
  show ((operation.run fuel).run session).bind _ = _
  refine Option.bind_congr fun ended _ => ?_
  show (performAll fuel operations ended.2).bind _ = _
  cases performAll fuel operations ended.2 <;> rfl

theorem printedByAll_cons :
    printedByAll fuel (operation :: operations) session = operation.printed fuel session ++
      (((operation.run fuel).run session).elim [] fun ended =>
        printedByAll fuel operations ended.2) := by
  simp only [printedByAll, printedBoth]
  cases (operation.run fuel).run session <;> rfl

theorem filterMap_operation?_perform :
    (Request.perform operation :: requests).filterMap Request.operation? =
      operation :: requests.filterMap Request.operation? := rfl

theorem serveAll_perform :
    serveAll fuel (.perform operation :: requests) session =
      ((operation.run fuel).run session).bind fun ended =>
        (serveAll fuel requests ended.2).map fun rest =>
          ((ended.1 :: rest.1.1, rest.1.2), rest.2) := by
  show ((operation.run fuel).run session).bind _ = _
  refine Option.bind_congr fun ended _ => ?_
  show (serveAll fuel requests ended.2).bind _ = _
  cases serveAll fuel requests ended.2 <;> rfl

theorem serveAll_take :
    serveAll fuel (.take :: requests) session =
      (serveAll fuel requests (session.withOutput session.output.take.2)).map fun rest =>
        ((rest.1.1, session.output.take.1 :: rest.1.2), rest.2) := by
  show (serveAll fuel requests (session.withOutput session.output.take.2)).bind _ = _
  cases serveAll fuel requests (session.withOutput session.output.take.2) <;> rfl

end

theorem append_flatten_printedApart (fuel : Nat) (requests : List Request) (session : Session) :
    (printedApart fuel requests session).1 ++ (printedApart fuel requests session).2.flatten =
      printedByAll fuel (requests.filterMap Request.operation?) session := by
  induction requests generalizing session with
  | nil => rfl
  | cons request rest ih =>
      cases request with
      | take => exact ih session
      | perform operation =>
          rw [filterMap_operation?_perform, printedByAll_cons, printedApart]
          dsimp only
          rw [List.append_assoc]
          cases (operation.run fuel).run session with
          | none => rfl
          | some ended => exact congrArg _ (ih ended.2)

/-- Taking text out in between changes nothing but where the text is. -/
theorem serveAll_eq (fuel : Nat) (requests : List Request) (session : Session) (output : Output) :
    ∃ texts left,
      output.TakenApart (printedApart fuel requests session).1
        (printedApart fuel requests session).2 texts left ∧
      serveAll fuel requests (session.withOutput output) =
        (performAll fuel (requests.filterMap Request.operation?) session).map fun ended =>
          ((ended.1, texts), ended.2.withOutput left) := by
  induction requests generalizing session output with
  | nil => exact ⟨[], output, .refl output, rfl⟩
  | cons request rest ih =>
      cases request with
      | take =>
          obtain ⟨texts, left, hapart, hserve⟩ := ih session output.take.2
          have hserved := serveAll_take fuel rest (session.withOutput output)
          refine ⟨output.take.1 :: texts, left, hapart.take, ?_⟩
          rw [hserved]
          show (serveAll fuel rest (session.withOutput output.take.2)).map _ = _
          rw [hserve, Option.map_map]
          rfl
      | perform operation =>
          have hrecords := Records.operation fuel operation session output
          rw [filterMap_operation?_perform, performAll_cons, serveAll_perform, hrecords,
            printedApart]
          cases (operation.run fuel).run session with
          | none => exact ⟨[], _, .print (.refl _), rfl⟩
          | some ended =>
              obtain ⟨texts, left, hapart, hserve⟩ :=
                ih ended.2 (output.printAll (operation.printed fuel session))
              refine ⟨texts, left, hapart.print, ?_⟩
              simp only [Option.map_some, Option.bind_some]
              rw [hserve, Option.map_map, Option.map_map]
              rfl

end Session

/-- Operations have the same outcomes and leave the same session, whatever the destination of their
output.  A buffer and the console get the same text: the values printed, in the order of printing
and each on a line of its own, which can be read back from it.  Requests in between for the text
that is held change neither the outcomes nor the session, whatever the destination.  A buffer gives
the text of the values printed since the last of them, the first time with what it held before, and
keeps that of the values printed behind the last one, so that nothing is lost or repeated; the other
destinations give nothing.  An evaluation that goes on forever prints the same everywhere, too, at
every step. -/
theorem output_does_not_matter (fuel : Nat) (session : Session)
    (operations : List Session.Operation) :
    ∃ text, text = String.join ((Session.printedByAll fuel operations session).map
        fun value => Text.decimal value ++ "\n") ∧
      (∀ captured, Session.performAll fuel operations (session.withOutput (.buffer captured)) =
        (Session.performAll fuel operations session).map fun ended =>
          (ended.1, ended.2.withOutput (.buffer (captured ++ text)))) ∧
      (∀ written, Session.performAll fuel operations (session.withOutput (.console written)) =
        (Session.performAll fuel operations session).map fun ended =>
          (ended.1, ended.2.withOutput (.console (written ++ text)))) ∧
      Session.performAll fuel operations (session.withOutput .silent) =
        (Session.performAll fuel operations session).map (fun ended =>
          (ended.1, ended.2.withOutput .silent)) ∧
      Text.values? text = some (Session.printedByAll fuel operations session) ∧
      (∀ requests : List Session.Request,
        requests.filterMap Session.Request.operation? = operations →
          ∃ first others, Session.printedApart fuel requests session = (first, others) ∧
            first ++ others.flatten = Session.printedByAll fuel operations session ∧
            (∀ captured, ∃ texts rest,
              texts ++ [rest] = (captured ++ Text.record first) :: others.map Text.record ∧
              String.join texts ++ rest = captured ++ text ∧
              Session.serveAll fuel requests (session.withOutput (.buffer captured)) =
                (Session.performAll fuel operations session).map fun ended =>
                  ((ended.1, texts), ended.2.withOutput (.buffer rest))) ∧
            (∀ written, Session.serveAll fuel requests (session.withOutput (.console written)) =
              (Session.performAll fuel operations session).map fun ended =>
                ((ended.1, others.map fun _ => ""),
                  ended.2.withOutput (.console (written ++ text)))) ∧
            Session.serveAll fuel requests (session.withOutput .silent) =
              (Session.performAll fuel operations session).map fun ended =>
                ((ended.1, others.map fun _ => ""), ended.2.withOutput .silent)) ∧
      ∀ (expr : Expr) (steps : Nat) (output : Output),
        Machine.afterSteps steps ⟨.evaluate expr, [], session.withOutput output⟩ =
          (Machine.afterSteps steps ⟨.evaluate expr, [], session⟩).withOutput
            (output.printAll (Machine.printed steps ⟨.evaluate expr, [], session⟩)) := by
  have hrecords := Session.Records.performAll fuel operations session
  simp only [Output.printAll_eq_write] at hrecords
  refine ⟨_, rfl, fun captured => hrecords (.buffer captured),
    fun written => hrecords (.console written), hrecords .silent, Text.values?_record _, ?_, ?_⟩
  · rintro requests rfl
    have hprinted := Session.append_flatten_printedApart fuel requests session
    have hserves := Session.serveAll_eq fuel requests session
    generalize Session.printedApart fuel requests session = apart at hprinted hserves
    obtain ⟨first, others⟩ := apart
    refine ⟨first, others, rfl, hprinted, fun captured => ?_, fun written => ?_, ?_⟩
    · obtain ⟨texts, _, hapart, hserve⟩ := hserves (.buffer captured)
      cases hapart with
      | @buffer _ rest _ hsplit =>
          refine ⟨texts, rest, hsplit, ?_, hserve⟩
          rw [Text.join_append_of_records hsplit]
          exact congrArg (captured ++ Text.record ·) hprinted
    · obtain ⟨_, _, hapart, hserve⟩ := hserves (.console written)
      cases hapart with
      | console =>
          rw [hserve]
          dsimp only at hprinted
          rw [hprinted]
          rfl
    · obtain ⟨_, _, hapart, hserve⟩ := hserves .silent
      cases hapart with
      | silent => exact hserve
  · intro expr steps output
    exact Machine.afterSteps_withOutput output steps ⟨.evaluate expr, [], session⟩

/-- A text is taken after an evaluation that prints and then divides by zero, and before another
evaluation. -/
theorem output_does_not_matter_with_take_after_fault : ∃ after,
    Session.serveAll 20
        [.perform (.evaluate (.block
          [.println (.number (-3)), .binary .divide (.number 1) (.number 0)])),
          .take, .perform (.evaluate (.println (.number 7)))]
        (.initial 0 (.buffer "")) =
      some (([.error .divisionByZero, .ok (some 7)], ["-3\n"]), after) ∧
    after.output = .buffer "7\n" := by
  obtain ⟨text, -, -, -, -, -, htake, -⟩ :=
    output_does_not_matter 20 (.initial 0 .silent)
      [.evaluate (.block [.println (.number (-3)), .binary .divide (.number 1) (.number 0)]),
        .evaluate (.println (.number 7))]
  obtain ⟨first, others, hapart, -, hbuffer, -⟩ := htake
    [.perform (.evaluate (.block
      [.println (.number (-3)), .binary .divide (.number 1) (.number 0)])),
      .take, .perform (.evaluate (.println (.number 7)))] rfl
  obtain ⟨rfl, rfl⟩ : [-3] = first ∧ [[7]] = others := Prod.mk.inj (.trans (by decide) hapart)
  obtain ⟨texts, rest, hsplit, -, hserve⟩ := hbuffer ""
  have hlines : texts ++ [rest] = ["-3\n"] ++ ["7\n"] := hsplit.trans (by decide)
  obtain ⟨rfl, hrest⟩ := List.append_inj' hlines rfl
  obtain rfl := List.singleton_inj.mp hrest
  exact ⟨_, hserve, rfl⟩

end IntScript
