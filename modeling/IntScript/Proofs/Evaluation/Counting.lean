import Mathlib.Data.Int.Range
import IntScript.Proofs.Evaluation.Occurring
import IntScript.Proofs.Evaluation.Wrapping

/-!
# Loops that count

A line with `for` stands for an assignment and a loop, and nothing keeps its body from assigning to
the variable, or from calling functions that do.  Where the body gives the variable back as it was
and the bound stays the same, the line counts: the body is evaluated once for every value from the
first one up to the bound, and the increments do not wrap around, whatever the values are.

* `Machine.Visits` : which of certain machines another one comes by on its way.
* `Machine.Shrinks` : what is evaluated with nothing pending is smaller every time.  So an
  expression is not evaluated again where it is evaluated already, and is come by once
  (`Machine.Visits.once`).
* `Counting.Steady` : what the bound and the body of the line have to keep to.
* `Counting.Steady.turn` : one turn of the loop.  `Counting.Steady.turns` : all of them, by
  induction on the number of values that are left.
* `for_line_counts` : the main result.
-/

namespace IntScript

/-! ## Assignments -/

theorem Scopes.lookup_update? {name : String} {value : Int64} {scopes updated : Scopes}
    (h : scopes.update? name value = some updated) : updated.lookup name = some value := by
  induction scopes generalizing updated with
  | nil => cases h
  | cons scope outer ih =>
      rw [update?] at h
      split at h
      next =>
        obtain rfl := Option.some.inj h
        rw [lookup, Table.get?_insert, if_pos rfl]
      next hbound =>
        obtain ⟨next, hnext, rfl⟩ := Option.map_eq_some_iff.mp h
        have hnone : scope.get? name = none := by
          rw [Bool.not_eq_true, Table.contains, Option.isSome_eq_false_iff,
            Option.isNone_iff_eq_none] at hbound
          exact hbound
        rw [lookup, hnone]
        exact ih hnext

theorem Scopes.lookup_assign {scopes : Scopes} (hne : scopes ≠ []) (name : String)
    (value : Int64) : (scopes.assign name value).lookup name = some value := by
  rw [assign]
  cases hupdate : scopes.update? name value with
  | some updated => exact lookup_update? hupdate
  | none =>
      obtain ⟨scope, outer, rfl⟩ := List.exists_cons_of_ne_nil hne
      rw [Option.getD_none, bindInnermost, lookup, Table.get?_insert, if_pos rfl]

namespace Session

/-- The session in which the variable is set where an assignment to it takes effect. -/
def assign? (session : Session) (name : String) (value : Int64) : Option Session :=
  (session.environment.target? name).map (session.setAt · name value)

/-- In a session that occurs every variable can be set, and has its value afterwards. -/
theorem Occurs.exists_assign {session : Session} (h : session.Occurs) (name : String)
    (value : Int64) : ∃ next, session.assign? name value = some next ∧ next.Occurs ∧
      next.visible? name = some value := by
  obtain ⟨state, hne, hstate⟩ := h.exists_state
  obtain ⟨index, htarget, hset⟩ := Environment.exists_target_ofScopes hne name value
  have htarget' : session.environment.target? name = some index := by rwa [hstate]
  refine ⟨session.setAt index name value, by rw [assign?, htarget', Option.map_some], ?_, ?_⟩
  · -- The assignment of the value as a numeral leads there in three steps.
    have hsteps : Machine.afterSteps 3 ⟨.evaluate (.assign name (.number value)), [], session⟩ =
        ⟨.outcome (.ok value), [], session.setAt index name value⟩ := by
      have hresume : Machine.resume value (.assign name) [] session =
          ⟨.outcome (.ok value), [], session.setAt index name value⟩ := by
        rw [Machine.resume, htarget']
      exact hresume
    have hoccurs := Occurs.during (.assign name (.number value)) 3 h
    rwa [hsteps] at hoccurs
  · have henvironment : (session.setAt index name value).environment =
        .ofScopes (state.scopes.assign name value) := by
      rw [hstate]
      exact hset
    have hne' := Scopes.ne_nil_of_length_eq (Scopes.length_assign state.scopes name value) hne
    rw [visible?, henvironment, Environment.lookup_ofScopes hne', Scopes.lookup_assign hne]

end Session

namespace Machine

theorem EndsWith.assign {name : String} {expr : Expr} {value : Int64}
    {session mid after : Session} (hvalue : EndsWith ⟨.evaluate expr, [], session⟩ (.ok value) mid)
    (hassign : mid.assign? name value = some after) :
    EndsWith ⟨.evaluate (.assign name expr), [], session⟩ (.ok value) after := by
  obtain ⟨index, htarget, rfl⟩ := Option.map_eq_some_iff.mp hassign
  have hstep : Machine.step ⟨.evaluate (.assign name expr), [], session⟩ =
      under ⟨.evaluate expr, [], session⟩ [.assign name] := rfl
  have hresume : Machine.step ⟨.outcome (.ok value), [.assign name], mid⟩ =
      ⟨.outcome (.ok value), [], mid.setAt index name value⟩ := by
    show resume value (.assign name) [] mid = _
    rw [resume, htarget]
  rw [← endsWith_step_iff, hstep, endsWith_under_iff]
  refine ⟨.ok value, mid, hvalue, ?_⟩
  rw [← endsWith_step_iff, hresume]
  exact ⟨0, rfl⟩

/-! ## What a machine comes by -/

/-- The machines at certain places that a machine comes by before it is another one, in order. -/
inductive Visits (place : Machine → Prop) : Machine → List Machine → Machine → Prop where
  | refl (machine : Machine) : Visits place machine [] machine
  | pass {machine last : Machine} {visited : List Machine} (hplace : ¬ place machine)
      (hrest : Visits place machine.step visited last) : Visits place machine visited last
  | come {machine last : Machine} {visited : List Machine} (hplace : place machine)
      (hrest : Visits place machine.step visited last) :
      Visits place machine (machine :: visited) last

namespace Visits

variable {place : Machine → Prop} {machine middle last : Machine} {first second : List Machine}
  {result : Except RunFault Int64} {session after : Session} {below : List Pending}

theorem trans (h : Visits place machine first middle) (h' : Visits place middle second last) :
    Visits place machine (first ++ second) last := by
  induction h with
  | refl => exact h'
  | pass hplace _ ih => exact .pass hplace (ih h')
  | come hplace _ ih => exact .come hplace (ih h')

/-- A machine comes to the end that it visits. -/
theorem endsWith (h : Visits place machine first ⟨.outcome result, [], after⟩) :
    machine.EndsWith result after := by
  generalize hlast : (⟨.outcome result, [], after⟩ : Machine) = last at h
  induction h with
  | refl machine =>
      rw [← hlast]
      exact ⟨0, rfl⟩
  | pass _ _ ih | come _ _ ih => exact endsWith_step_iff.mp (ih hlast)

/-- A machine that is nowhere at a place until it comes to its end. -/
theorem of_endsWith (h : machine.EndsWith result after)
    (hplace : ∀ steps, ¬ place ((afterSteps steps machine).under below)) :
    Visits place (machine.under below) [] ⟨.outcome result, below, after⟩ := by
  obtain ⟨steps, hend⟩ := h
  induction steps generalizing machine with
  | zero =>
      obtain rfl : machine = ⟨.outcome result, [], after⟩ := hend
      exact .refl _
  | succ steps ih =>
      rcases ended_or_step_under machine below with ⟨other, mid, rfl⟩ | hstep
      · rw [afterSteps_outcome] at hend
        cases hend
        exact .refl _
      · refine .pass (hplace 0) ?_
        rw [hstep]
        exact ih (fun steps => hplace (steps + 1)) hend

end Visits

/-! ## An expression in its own place -/

/-- What the machine evaluates with nothing pending is smaller than the size, now or once the last
pending task is done. -/
structure Shrinks (size : Nat) (machine : Machine) : Prop where
  focus : machine.pending = [] → ∀ expr, machine.focus = .evaluate expr → sizeOf expr < size
  branch : ∀ above thenBody elseBody, machine.pending = above ++ [.branch thenBody elseBody] →
    sizeOf thenBody < size ∧ ∀ other ∈ elseBody, sizeOf other < size

namespace Shrinks

variable {size : Nat} {session : Session}

theorem mono {machine : Machine} {more : Nat} (h : machine.Shrinks size) (hle : size ≤ more) :
    machine.Shrinks more where
  focus hpending expr hfocus := Nat.lt_of_lt_of_le (h.focus hpending expr hfocus) hle
  branch above thenBody elseBody hpending := by
    obtain ⟨hthen, helse⟩ := h.branch above thenBody elseBody hpending
    exact ⟨Nat.lt_of_lt_of_le hthen hle,
      fun other hmem => Nat.lt_of_lt_of_le (helse other hmem) hle⟩

/-- Nothing is evaluated any more. -/
theorem of_nil {focus : Focus} (h : ∀ expr, focus ≠ .evaluate expr) :
    Shrinks size ⟨focus, [], session⟩ where
  focus _ expr hfocus := absurd hfocus (h expr)
  branch above thenBody elseBody hpending := by simp at hpending

/-- Only a conditional evaluates one of its parts in its own place. -/
theorem of_task {focus : Focus} {task : Pending}
    (h : ∀ thenBody elseBody, task = .branch thenBody elseBody →
      sizeOf thenBody < size ∧ ∀ other ∈ elseBody, sizeOf other < size) :
    Shrinks size ⟨focus, [task], session⟩ where
  focus hpending := by simp at hpending
  branch above thenBody elseBody hpending := by
    have hsplit : [] ++ [task] = above ++ [.branch thenBody elseBody] := hpending
    obtain ⟨-, hlast⟩ := List.append_inj' hsplit rfl
    exact h thenBody elseBody (List.singleton_inj.mp hlast)

theorem call (function : Function) (bound : Table Int64) (arguments : Arguments) :
    Shrinks size (Machine.call function bound arguments [] session) := by
  unfold Machine.call
  split
  · exact of_task (by simp)
  · split
    · exact of_nil (by simp)
    · exact of_task (by simp)

theorem descend (expr : Expr) (session : Session) :
    Shrinks (sizeOf expr) (Machine.descend expr [] session) := by
  cases expr with
  | number => exact of_nil (by simp)
  | symbol name =>
      simp only [Machine.descend]
      cases session.environment.lookup name <;> exact of_nil (by simp)
  | block body =>
      cases body with
      | nil => exact of_nil (by simp)
      | cons => exact of_task (by simp)
  | ifThen condition thenBody =>
      refine of_task ?_
      rintro _ _ ⟨⟩
      rw [Expr.ifThen.sizeOf_spec]
      exact ⟨by omega, by simp⟩
  | ifElse condition thenBody elseBody =>
      refine of_task ?_
      rintro _ _ ⟨⟩
      rw [Expr.ifElse.sizeOf_spec]
      refine ⟨by omega, fun other hother => ?_⟩
      obtain rfl := Option.mem_some_iff.mp hother
      omega
  | call callee arguments =>
      simp only [Machine.descend]
      cases session.resolve callee arguments with
      | error => exact of_nil (by simp)
      | ok resolved => exact call resolved.1 .empty resolved.2
  | labelledCall callee arguments =>
      simp only [Machine.descend]
      cases session.resolveLabelled callee arguments with
      | error => exact of_nil (by simp)
      | ok resolved => exact call resolved.1 .empty resolved.2
  | assign | binary | loop | println => exact of_task (by simp)

/-- The last pending task is done, and it is a conditional if anything is evaluated in its place. -/
theorem resume {value : Int64} {task : Pending}
    (h : ∀ thenBody elseBody, task = .branch thenBody elseBody →
      sizeOf thenBody < size ∧ ∀ other ∈ elseBody, sizeOf other < size) :
    Shrinks size (Machine.resume value task [] session) := by
  have hevaluate : ∀ expr : Expr, sizeOf expr < size →
      Shrinks size ⟨.evaluate expr, [], session⟩ := by
    intro expr hsize
    refine ⟨fun _ other hfocus => ?_, fun _ _ _ hpending => by simp at hpending⟩
    obtain rfl := Focus.evaluate.inj hfocus
    exact hsize
  cases task with
  | assign name =>
      simp only [Machine.resume]
      cases session.environment.target? name <;> exact of_nil (by simp)
  | sequence rest =>
      cases rest with
      | nil => exact of_nil (by simp)
      | cons => exact of_task (by simp)
  | branch thenBody elseBody =>
      obtain ⟨hthen, helse⟩ := h thenBody elseBody rfl
      simp only [Machine.resume]
      split
      · exact hevaluate thenBody hthen
      · cases elseBody with
        | none => exact of_nil (by simp)
        | some other => exact hevaluate other (helse other rfl)
  | test condition body =>
      simp only [Machine.resume]
      split
      · exact of_task (by simp)
      · exact of_nil (by simp)
  | argument function bound parameter rest =>
      exact call function (bound.insert parameter value) rest
  | apply | leave | print => exact of_nil (by simp)
  | rightOperand | again => exact of_task (by simp)

theorem step {machine : Machine} (h : machine.Shrinks size) : machine.step.Shrinks size := by
  obtain ⟨focus, pending, session⟩ := machine
  rcases pending.eq_nil_or_concat with rfl | ⟨above, task, rfl⟩
  · cases focus with
    | evaluate expr =>
        have hsize : sizeOf expr < size := h.focus rfl expr rfl
        exact (descend expr session).mono (Nat.le_of_lt hsize)
    | outcome result => cases result <;> exact of_nil (by simp)
    | stuck => exact of_nil (by simp)
  · rw [List.concat_eq_append] at h ⊢
    have htask : ∀ thenBody elseBody, task = .branch thenBody elseBody →
        sizeOf thenBody < size ∧ ∀ other ∈ elseBody, sizeOf other < size := by
      rintro thenBody elseBody rfl
      exact h.branch above thenBody elseBody rfl
    rcases ended_or_step_under ⟨focus, above, session⟩ [task] with ⟨result, mid, hend⟩ | hstep
    · cases hend
      cases result with
      | ok value => exact resume htask
      | error fault => exact of_nil (by simp)
    · have hunder : Machine.step ⟨focus, above ++ [task], session⟩ =
          (Machine.step ⟨focus, above, session⟩).under [task] := hstep
      rw [hunder]
      refine ⟨fun hpending => ?_, fun others thenBody elseBody hpending => ?_⟩
      · simp [under] at hpending
      · obtain ⟨-, hlast⟩ := List.append_inj' hpending rfl
        exact htask thenBody elseBody (List.singleton_inj.mp hlast)

theorem afterSteps {machine : Machine} (h : machine.Shrinks size) (steps : Nat) :
    (Machine.afterSteps steps machine).Shrinks size := by
  induction steps generalizing machine with
  | zero => exact h
  | succ steps ih => exact ih h.step

end Shrinks

/-- An expression that is evaluated is come by once, where nothing but its own start counts. -/
theorem Visits.once {place : Machine → Prop} {expr : Expr} {below : List Pending}
    {session after : Session} {result : Except RunFault Int64}
    (hend : EndsWith ⟨.evaluate expr, [], session⟩ result after)
    (hhere : place ⟨.evaluate expr, below, session⟩)
    (hplace : ∀ machine : Machine, place (machine.under below) →
      machine.pending = [] ∧ machine.focus = .evaluate expr) :
    Visits place ⟨.evaluate expr, below, session⟩ [⟨.evaluate expr, below, session⟩]
      ⟨.outcome result, below, after⟩ := by
  have hstep : Machine.step ⟨.evaluate expr, below, session⟩ =
      (Machine.descend expr [] session).under below := descend_under [] below session expr
  refine .come hhere ?_
  rw [hstep]
  refine .of_endsWith (endsWith_step_iff.mpr hend) fun steps hat => ?_
  obtain ⟨hpending, hfocus⟩ := hplace _ hat
  exact Nat.lt_irrefl _
    (((Shrinks.descend expr session).afterSteps steps).focus hpending expr hfocus)

end Machine

/-! ## Counting -/

namespace Counting

/-- The values from the first one up to the bound, without the bound, are one more if the first is
below the bound. -/
theorem range_of_lt {first last : Int} (h : first < last) :
    Int.range first last = first :: Int.range (first + 1) last := by
  have hlength : (last - first).toNat = (last - (first + 1)).toNat + 1 := by omega
  rw [Int.range, hlength, List.range_succ_eq_map, List.map_cons, List.map_map, Int.range]
  congr 1
  · simp
  · refine List.map_congr_left fun index _ => ?_
    rw [Function.comp_apply, Nat.cast_succ]
    omega

theorem range_of_le {first last : Int} (h : last ≤ first) : Int.range first last = [] := by
  have hlength : (last - first).toNat = 0 := by omega
  rw [Int.range, hlength, List.range_zero, List.map_nil]

/-- Below another value there is room for one more. -/
theorem toInt_add_one {value last : Int64} (h : value < last) :
    (value + 1).toInt = value.toInt + 1 := by
  have hlow := value.le_toInt
  have hhigh := last.toInt_lt
  have hlt := Int64.lt_iff_toInt_lt.mp h
  have hone : Int64.toInt 1 = 1 := rfl
  rw [Int64.toInt_add, hone]
  exact Int.bmod_eq_of_le (by omega) (by omega)

section

variable (name : String) (stop body : Expr)

/-- What counts the variable up. -/
def increment : Expr :=
  .assign name (.binary .add (.symbol name) (.number 1))

/-- What decides on a further turn. -/
def condition : Expr :=
  .binary .less (.symbol name) stop

/-- What is evaluated in every turn. -/
def turnBody : Expr :=
  .block [body, increment name]

/-- What is pending, below the rest of the turn, while a turn of the line is evaluated. -/
def turnTasks : List Pending :=
  [.again (condition name stop) (turnBody name body), .sequence []]

/-- The machine that is about to decide on a further turn. -/
def atCondition (session : Session) : Machine :=
  ⟨.evaluate (condition name stop),
    [.test (condition name stop) (turnBody name body), .sequence []], session⟩

/-- The machine that is about to evaluate the body of the line. -/
def atBody (session : Session) : Machine :=
  ⟨.evaluate body, .sequence [increment name] :: turnTasks name stop body, session⟩

/-- The machine that is about to evaluate the increment of the line. -/
def atIncrement (session : Session) : Machine :=
  ⟨.evaluate (increment name), .sequence [] :: turnTasks name stop body, session⟩

/-- The machine is about to evaluate the body or the increment of the line. -/
def IsPlace (machine : Machine) : Prop :=
  machine = atBody name stop body machine.session ∨
    machine = atIncrement name stop body machine.session

/-- The body and the increment in one turn of the line, with the sessions they are evaluated in. -/
def turnMachines (turn : Session × Session) : List Machine :=
  [atBody name stop body turn.1, atIncrement name stop body turn.2]

end

variable {name : String} {stop body : Expr} {machine : Machine} {task : Pending}

/-- In both places one task is pending besides those of the turn. -/
theorem IsPlace.exists_pending (h : IsPlace name stop body machine) :
    ∃ task, machine.pending = task :: turnTasks name stop body := by
  rcases h with h | h
  · exact ⟨.sequence [increment name], congrArg Machine.pending h⟩
  · exact ⟨.sequence [], congrArg Machine.pending h⟩

theorem not_isPlace_outcome (result : Except RunFault Int64) (pending : List Pending)
    (session : Session) : ¬ IsPlace name stop body ⟨.outcome result, pending, session⟩ := by
  rintro (h | h) <;> cases congrArg Machine.focus h

theorem not_isPlace_of_length (h : machine.pending.length ≠ 3) :
    ¬ IsPlace name stop body machine := by
  intro hplace
  obtain ⟨task, hpending⟩ := hplace.exists_pending
  exact h (congrArg List.length hpending)

/-- A place is above the tasks of a turn and above no others. -/
theorem IsPlace.eq_turnTasks {below : List Pending}
    (h : IsPlace name stop body (machine.under below)) (hlength : below.length = 2) :
    below = turnTasks name stop body := by
  obtain ⟨task, hpending⟩ := h.exists_pending
  have hsplit : machine.pending ++ below = [task] ++ turnTasks name stop body := hpending
  exact (List.append_inj' hsplit hlength).2

/-- The task at the bottom is the rest of the line, which is empty. -/
theorem IsPlace.eq_sequence {last : Pending}
    (h : IsPlace name stop body (machine.under [last])) : last = .sequence [] := by
  obtain ⟨task, hpending⟩ := h.exists_pending
  have hsplit : machine.pending ++ [last] = task :: (turnTasks name stop body).dropLast ++
    [.sequence []] := hpending
  obtain ⟨-, hlast⟩ := List.append_inj' hsplit rfl
  exact List.singleton_inj.mp hlast

/-- What is pending at a place tells what is evaluated there. -/
theorem IsPlace.focus_eq {other : Machine} (h : IsPlace name stop body machine)
    (h' : IsPlace name stop body other) (hpending : machine.pending = other.pending) :
    machine.focus = other.focus := by
  rcases h with h | h <;> rcases h' with h' | h' <;> rw [h, h'] at hpending ⊢
  · rfl
  · cases hpending
  · cases hpending
  · rfl

/-- An expression whose evaluation starts at a place is at a place only where it starts. -/
theorem IsPlace.starts {expr : Expr} {session : Session} {below : List Pending}
    (hhere : IsPlace name stop body ⟨.evaluate expr, below, session⟩)
    (h : IsPlace name stop body (machine.under below)) :
    machine.pending = [] ∧ machine.focus = .evaluate expr := by
  obtain ⟨task, hbelow⟩ := hhere.exists_pending
  obtain ⟨other, hpending⟩ := h.exists_pending
  have hbelow' : below = task :: turnTasks name stop body := hbelow
  have hnil : machine.pending = [] := by
    have hlength := congrArg List.length hpending
    simpa [Machine.under, hbelow'] using hlength
  refine ⟨hnil, h.focus_eq hhere ?_⟩
  rw [Machine.under, hnil, List.nil_append]

/-- The bound and the body of a line with `for` that counts, by a predicate that the sessions in its
course have. -/
structure Steady (Inv : Session → Prop) (name : String) (stop body : Expr)
    (first last : Int64) : Prop where
  /-- The predicate does not depend on the variable. -/
  assign : ∀ (session next : Session) (value : Int64), session.Occurs → Inv session →
    session.assign? name value = some next → Inv next
  /-- The bound is always the same, and to evaluate it changes nothing. -/
  stop : ∀ session : Session, session.Occurs → Inv session →
    ∃ fuel, Session.evaluate fuel stop session = some (.ok last, session)
  /-- The body succeeds as long as the variable is below the bound, and gives it back as it was. -/
  body : ∀ (session : Session) (value : Int64), session.Occurs → Inv session →
    session.visible? name = some value → first ≤ value → value < last →
    ∃ fuel result after, Session.evaluate fuel body session = some (.ok result, after) ∧
      Inv after ∧ after.visible? name = some value

open Machine (Visits EndsWith exists_run_eq_some_iff)

namespace Steady

variable {Inv : Session → Prop} {first last value : Int64} {session : Session}

/-- The way through the condition, where the line does nothing that counts. -/
theorem visits_condition (h : Steady Inv name stop body first last) (hoccurs : session.Occurs)
    (hinv : Inv session) (hvalue : session.visible? name = some value) :
    Visits (IsPlace name stop body) (atCondition name stop body session) []
      ⟨.outcome (.ok (Operator.truth (value < last))),
        [.test (condition name stop) (turnBody name body), .sequence []], session⟩ := by
  have hstop := exists_run_eq_some_iff.mp (h.stop session hoccurs hinv)
  have hend : EndsWith ⟨.evaluate (condition name stop), [], session⟩
      (.ok (Operator.truth (value < last))) session :=
    Machine.endsWith_binary_iff.mpr (.inr ⟨value, session,
      Machine.endsWith_symbol_ok_iff.mpr ⟨hvalue, rfl⟩, .inr ⟨last, hstop, rfl⟩⟩)
  refine Visits.of_endsWith hend fun steps hplace => ?_
  cases hplace.eq_turnTasks rfl

/-- The way through the body, from which the session comes back with the variable as it was. -/
theorem visits_body (h : Steady Inv name stop body first last) (hoccurs : session.Occurs)
    (hinv : Inv session) (hvalue : session.visible? name = some value) (hfirst : first ≤ value)
    (hlast : value < last) : ∃ mid, mid.Occurs ∧ Inv mid ∧ mid.visible? name = some value ∧
      Visits (IsPlace name stop body) (atBody name stop body session)
        [atBody name stop body session] (atIncrement name stop body mid) := by
  obtain ⟨fuel, result, mid, hrun, hinv', hvalue'⟩ :=
    h.body session value hoccurs hinv hvalue hfirst hlast
  have hperform : (Session.Operation.evaluate body).perform fuel session = some mid :=
    Option.map_eq_some_iff.mpr ⟨_, hrun, rfl⟩
  have hend := exists_run_eq_some_iff.mp ⟨fuel, hrun⟩
  have hhere : IsPlace name stop body (atBody name stop body session) := .inl rfl
  refine ⟨mid, .perform _ fuel hoccurs hperform, hinv', hvalue', ?_⟩
  exact (Visits.once hend hhere fun _ => hhere.starts).trans
    (.pass (not_isPlace_outcome _ _ _) (.refl _))

/-- The way through the increment, which sets the variable one higher. -/
theorem visits_increment (h : Steady Inv name stop body first last) (hoccurs : session.Occurs)
    (hinv : Inv session) (hvalue : session.visible? name = some value) :
    ∃ next, next.Occurs ∧ Inv next ∧ next.visible? name = some (value + 1) ∧
      Visits (IsPlace name stop body) (atIncrement name stop body session)
        [atIncrement name stop body session] (atCondition name stop body next) := by
  obtain ⟨next, hassign, hoccurs', hvalue'⟩ := hoccurs.exists_assign name (value + 1)
  have hsum : EndsWith ⟨.evaluate (.binary .add (.symbol name) (.number 1)), [], session⟩
      (.ok (value + 1)) session :=
    Machine.endsWith_binary_iff.mpr (.inr ⟨value, session,
      Machine.endsWith_symbol_ok_iff.mpr ⟨hvalue, rfl⟩,
      .inr ⟨1, Machine.endsWith_number_iff.mpr ⟨rfl, rfl⟩, rfl⟩⟩)
  have hhere : IsPlace name stop body (atIncrement name stop body session) := .inr rfl
  refine ⟨next, hoccurs', h.assign session next _ hoccurs hinv hassign, hvalue', ?_⟩
  exact (Visits.once (hsum.assign hassign) hhere fun _ => hhere.starts).trans
    (.pass (not_isPlace_outcome _ _ _) (.pass (not_isPlace_outcome _ _ _) (.refl _)))

/-- One turn of the line. -/
theorem turn (h : Steady Inv name stop body first last) (hoccurs : session.Occurs)
    (hinv : Inv session) (hvalue : session.visible? name = some value) (hfirst : first ≤ value)
    (hlast : value < last) : ∃ mid next, next.Occurs ∧ Inv next ∧
      mid.visible? name = some value ∧ next.visible? name = some (value + 1) ∧
      Visits (IsPlace name stop body) (atCondition name stop body session)
        (turnMachines name stop body (session, mid)) (atCondition name stop body next) := by
  have hcondition := h.visits_condition hoccurs hinv hvalue
  obtain ⟨mid, hoccursMid, hinvMid, hvalueMid, hbody⟩ :=
    h.visits_body hoccurs hinv hvalue hfirst hlast
  obtain ⟨next, hoccursNext, hinvNext, hvalueNext, hincrement⟩ :=
    h.visits_increment hoccursMid hinvMid hvalueMid
  have htest : Machine.step ⟨.outcome (.ok (Operator.truth (value < last))),
      [.test (condition name stop) (turnBody name body), .sequence []], session⟩ =
      ⟨.evaluate (turnBody name body), turnTasks name stop body, session⟩ := by
    rw [Operator.truth, if_pos (decide_eq_true hlast)]
    rfl
  have henter : Visits (IsPlace name stop body) ⟨.outcome (.ok (Operator.truth (value < last))),
      [.test (condition name stop) (turnBody name body), .sequence []], session⟩ []
      (atBody name stop body session) := by
    refine .pass (not_isPlace_outcome _ _ _) ?_
    rw [htest]
    exact .pass (not_isPlace_of_length (by simp [turnTasks])) (.refl _)
  exact ⟨mid, next, hoccursNext, hinvNext, hvalueMid, hvalueNext,
    hcondition.trans (henter.trans (hbody.trans hincrement))⟩

/-- The last time that the condition is evaluated. -/
theorem visits_end (h : Steady Inv name stop body first last) (hoccurs : session.Occurs)
    (hinv : Inv session) (hvalue : session.visible? name = some value) (hlast : ¬ value < last) :
    Visits (IsPlace name stop body) (atCondition name stop body session) []
      ⟨.outcome (.ok 1), [], session⟩ := by
  have hcondition := h.visits_condition hoccurs hinv hvalue
  have htest : Machine.step ⟨.outcome (.ok (Operator.truth (value < last))),
      [.test (condition name stop) (turnBody name body), .sequence []], session⟩ =
      ⟨.outcome (.ok 1), [.sequence []], session⟩ := by
    rw [Operator.truth, if_neg (by simpa using hlast)]
    rfl
  refine hcondition.trans (.pass (not_isPlace_outcome _ _ _) ?_)
  rw [htest]
  exact .pass (not_isPlace_outcome _ _ _) (.refl _)

/-- All turns of the line that are left, and its end. -/
theorem turns (h : Steady Inv name stop body first last) (hoccurs : session.Occurs)
    (hinv : Inv session) (hvalue : session.visible? name = some value) (hfirst : first ≤ value) :
    ∃ (turns : List (Session × Session)) (after : Session),
      Visits (IsPlace name stop body) (atCondition name stop body session)
        (turns.flatMap (turnMachines name stop body)) ⟨.outcome (.ok 1), [], after⟩ ∧
      turns.map (fun turn => (turn.1.visible? name).map Int64.toInt) =
        (Int.range value.toInt last.toInt).map some ∧
      (∀ turn ∈ turns, ∃ value, turn.1.visible? name = some value ∧
        turn.2.visible? name = some value ∧ (value + 1).toInt = value.toInt + 1) ∧
      after.visible? name = some (max value last) ∧ Inv after := by
  -- The induction is on the number of values from that of the variable up to the bound.
  obtain ⟨left, hleft⟩ : ∃ left, (last.toInt - value.toInt).toNat = left := ⟨_, rfl⟩
  induction left generalizing session value with
  | zero =>
      have hle : last ≤ value := Int64.le_iff_toInt_le.mpr (by omega)
      have hlast : ¬ value < last := by
        rw [Int64.lt_iff_toInt_lt, Int.not_lt]
        exact Int64.le_iff_toInt_le.mp hle
      have hmax : max value last = value := by
        show (if value ≤ last then last else value) = value
        split
        next hge => exact Int64.le_antisymm hle hge
        next => rfl
      refine ⟨[], session, h.visits_end hoccurs hinv hvalue hlast, ?_, by simp, ?_, hinv⟩
      · rw [range_of_le (Int64.le_iff_toInt_le.mp hle)]
        rfl
      · rw [hmax, hvalue]
  | succ left ih =>
      have hlt : value.toInt < last.toInt := by omega
      have hlast : value < last := Int64.lt_iff_toInt_lt.mpr hlt
      have hnext : (value + 1).toInt = value.toInt + 1 := toInt_add_one hlast
      obtain ⟨mid, next, hoccurs', hinv', hmid, hvalue', hturn⟩ :=
        h.turn hoccurs hinv hvalue hfirst hlast
      have hfirst' : first ≤ value + 1 := by
        rw [Int64.le_iff_toInt_le] at hfirst ⊢
        omega
      obtain ⟨turns, after, hvisits, hvalues, hcounts, hafter, hinvAfter⟩ :=
        ih hoccurs' hinv' hvalue' hfirst' (by omega)
      refine ⟨(session, mid) :: turns, after, hturn.trans hvisits, ?_, ?_, ?_, hinvAfter⟩
      · rw [List.map_cons, hvalues, hvalue, hnext, range_of_lt hlt]
        rfl
      · exact List.forall_mem_cons.mpr ⟨⟨value, hvalue, hmid, hnext⟩, hcounts⟩
      · rw [hafter]
        have hge : value ≤ last := Int64.le_of_lt hlast
        have hge' : value + 1 ≤ last := by
          rw [Int64.le_iff_toInt_le]
          omega
        exact congrArg some ((if_pos hge').trans (if_pos hge).symm)

end Steady

end Counting

open Counting Machine in
/-- A line with `for`, in a session that occurs, whose first expression comes to `first`, and whose
bound and body are steady once the variable is `first`.  It comes to 1.  On the way its body and its
increment are evaluated in turns, as often as there are values from `first` up to `last`: the body
where the variable has these values in order, and the increment where the variable has the same
value still, which is not the largest one.  In the end the variable is `last`, or `first` if that is
larger. -/
theorem for_line_counts {session mid : Session} {name : String} {start stop body : Expr}
    {first last : Int64} {Inv : Session → Prop} (hoccurs : session.Occurs)
    (hstart : ∃ fuel, Session.evaluate fuel start session = some (.ok first, mid))
    (hfirst : ∀ next, mid.assign? name first = some next → Inv next)
    (hsteady : Steady Inv name stop body first last) :
    ∃ (turns : List (Session × Session)) (after : Session),
      (∃ fuel, Session.evaluate fuel (.forIn name start stop body) session =
        some (.ok 1, after)) ∧
      Visits (IsPlace name stop body) ⟨.evaluate (.forIn name start stop body), [], session⟩
        (turns.flatMap (turnMachines name stop body)) ⟨.outcome (.ok 1), [], after⟩ ∧
      turns.length = (last.toInt - first.toInt).toNat ∧
      turns.map (fun turn => (turn.1.visible? name).map Int64.toInt) =
        (Int.range first.toInt last.toInt).map some ∧
      (∀ turn ∈ turns, ∃ value, turn.1.visible? name = some value ∧
        turn.2.visible? name = some value ∧ (value + 1).toInt = value.toInt + 1) ∧
      after.visible? name = some (max first last) ∧ Inv after := by
  obtain ⟨fuel, hrun⟩ := hstart
  have hperform : (Session.Operation.evaluate start).perform fuel session = some mid :=
    Option.map_eq_some_iff.mpr ⟨_, hrun, rfl⟩
  obtain ⟨next, hassign, hoccurs', hvalue⟩ :=
    (Session.Occurs.perform _ fuel hoccurs hperform).exists_assign name first
  obtain ⟨turns, after, hvisits, hvalues, hcounts, hafter, hinv⟩ :=
    hsteady.turns hoccurs' (hfirst next hassign) hvalue (Int64.le_refl first)
  have hend : EndsWith ⟨.evaluate (.assign name start), [], session⟩ (.ok first) next :=
    (exists_run_eq_some_iff.mp ⟨fuel, hrun⟩).assign hassign
  have hvisits' : Visits (IsPlace name stop body)
      ⟨.evaluate (.forIn name start stop body), [], session⟩
      (turns.flatMap (turnMachines name stop body)) ⟨.outcome (.ok 1), [], after⟩ := by
    have hassigned : Visits (IsPlace name stop body)
        (under ⟨.evaluate (.assign name start), [], session⟩
          [.sequence [.loop (condition name stop) (turnBody name body)]]) []
        ⟨.outcome (.ok first), [.sequence [.loop (condition name stop) (turnBody name body)]],
          next⟩ := by
      refine .of_endsWith hend fun _ hplace => ?_
      cases hplace.eq_sequence
    refine .pass (not_isPlace_of_length (by simp)) (hassigned.trans ?_)
    refine .pass (not_isPlace_outcome _ _ _) (.pass (not_isPlace_of_length ?_) hvisits)
    show ([.sequence []] : List Pending).length ≠ 3
    decide
  refine ⟨turns, after, exists_run_eq_some_iff.mpr hvisits'.endsWith, hvisits', ?_, hvalues,
    hcounts, hafter, hinv⟩
  have hlength := congrArg List.length hvalues
  simpa [Int.range] using hlength

open Machine in
/-- A line that prints the two values before the largest one, which is its bound, and leaves its
variable at the largest value. -/
theorem for_line_counts_to_largest_value : ∃ session : Session, session.Occurs ∧
    (∃ fuel, Session.evaluate fuel (.number (Int64.maxValue - 2)) session =
      some (.ok (Int64.maxValue - 2), session)) ∧
    Counting.Steady (fun _ => True) "i" (.number Int64.maxValue) (.println (.symbol "i"))
      (Int64.maxValue - 2) Int64.maxValue ∧
    ∃ (turns : List (Session × Session)) (after : Session),
      (∃ fuel, Session.evaluate fuel (.forIn "i" (.number (Int64.maxValue - 2))
        (.number Int64.maxValue) (.println (.symbol "i"))) session = some (.ok 1, after)) ∧
      turns.length = 2 ∧ after.visible? "i" = some Int64.maxValue := by
  have hbody : ∀ (session : Session) (value : Int64), session.visible? "i" = some value →
      ∃ fuel, Session.evaluate fuel (.println (.symbol "i")) session =
        some (.ok value, session.print value) := by
    intro session value hvalue
    have hstep : Machine.step ⟨.evaluate (.println (.symbol "i")), [], session⟩ =
        under ⟨.evaluate (.symbol "i"), [], session⟩ [.print] := rfl
    refine exists_run_eq_some_iff.mpr (endsWith_step_iff.mp ?_)
    rw [hstep, endsWith_under_iff]
    exact ⟨.ok value, session, endsWith_symbol_ok_iff.mpr ⟨hvalue, rfl⟩, 1, rfl⟩
  have hsteady : Counting.Steady (fun _ => True) "i" (.number Int64.maxValue)
      (.println (.symbol "i")) (Int64.maxValue - 2) Int64.maxValue := by
    refine ⟨fun _ _ _ _ _ _ => trivial, fun session _ _ => ⟨2, rfl⟩, ?_⟩
    intro session value _ _ hvalue _ _
    obtain ⟨fuel, hrun⟩ := hbody session value hvalue
    exact ⟨fuel, value, session.print value, hrun, trivial, hvalue⟩
  have hoccurs : (Session.initial 1 .silent).Occurs := .initial 1 .silent
  have hstart : ∃ fuel, Session.evaluate fuel (.number (Int64.maxValue - 2))
      (Session.initial 1 .silent) =
        some (.ok (Int64.maxValue - 2), Session.initial 1 .silent) := ⟨2, rfl⟩
  obtain ⟨turns, after, hrun, -, hlength, -, -, hafter, -⟩ :=
    for_line_counts hoccurs hstart (fun _ _ => trivial) hsteady
  exact ⟨_, hoccurs, hstart, hsteady, turns, after, hrun, hlength, hafter⟩

end IntScript
