import Mathlib
import IntScript.Proofs.Evaluation.Occurring
import IntScript.Proofs.Source.Parts

/-!
# Names come and go with calls

Assignments in a called function may take effect in the frame of any caller, but only on a name that
is bound there.  New names end up in the frame of the call and are dropped with it.  So an
evaluation unbinds no name, and it binds new ones in the current frame only, where they are those of
the assignments in the expression itself.

* `Environment.Widens` : what becomes of the names of an environment.
* `Machine.Layered` : the same while calls are in progress, said of what is left once these are
  left; `Machine.Layered.assign` is the step that it is all about.
* `Machine.Confined.step` : what is evaluated while no call is in progress are parts of the
  expression, so that it is their assignments that count.
* `evaluation_keeps_names` : the main result.
-/

namespace IntScript

namespace Environment

variable {environment first second before after : Environment} {index other current : Nat}
  {name key : String} {value : Int64} {allowed : String → Prop}

/-! ## Bound names -/

/-- The frame binds the name. -/
def Binds (environment : Environment) (index : Nat) (name : String) : Prop :=
  (environment.valueAt? index name).isSome = true

theorem valueAt?_setAt (environment : Environment) :
    (environment.setAt index name value).valueAt? other key =
      if other = index ∧ key = name ∧ index < environment.frames.size then some value
      else environment.valueAt? other key := by
  simp only [valueAt?, setAt, Array.getElem?_modify]
  by_cases hindex : index = other
  · subst hindex
    by_cases hlt : index < environment.frames.size <;> simp [hlt]
  · simp [hindex, Ne.symm hindex]

theorem binds_setAt_iff (environment : Environment) :
    (environment.setAt index name value).Binds other key ↔
      environment.Binds other key ∨
        (other = index ∧ key = name ∧ index < environment.frames.size) := by
  rw [Binds, valueAt?_setAt]
  split
  next h => simp [h]
  next h => simp [Binds, h]

theorem binds_of_findFrom {fuel start : Nat}
    (h : findFrom environment.frames name fuel start = .found index) :
    environment.Binds index name := by
  induction fuel generalizing start with
  | zero => cases h
  | succ fuel ih =>
      rw [findFrom] at h
      split at h
      next => cases h
      next frame hframe =>
        split at h
        next hbound =>
          cases h
          rw [Binds, valueAt?, hframe]
          exact hbound
        next =>
          split at h
          next => cases h
          next => exact ih h

theorem binds_of_find (h : environment.find name = .found index) : environment.Binds index name :=
  binds_of_findFrom h

theorem getElem?_pop (environment : Environment) (caller : Nat) :
    (environment.pop caller).frames[index]? =
      if 1 < environment.frames.size ∧ index + 1 = environment.frames.size then none
      else environment.frames[index]? := by
  by_cases hsize : 1 < environment.frames.size
  · rw [pop, if_pos hsize, Array.getElem?_pop]
    by_cases hlt : index < environment.frames.size - 1
    · rw [if_pos hlt, if_neg (by omega)]
    · rw [if_neg hlt]
      by_cases hlast : index + 1 = environment.frames.size
      · rw [if_pos ⟨hsize, hlast⟩]
      · rw [if_neg (by omega), Array.getElem?_eq_none (by omega)]
  · rw [pop, if_neg hsize, if_neg (by omega)]

theorem binds_pop_iff (environment : Environment) (caller : Nat) :
    (environment.pop caller).Binds index name ↔
      environment.Binds index name ∧
        ¬ (1 < environment.frames.size ∧ index + 1 = environment.frames.size) := by
  rw [Binds, valueAt?, getElem?_pop]
  split
  next h => simp [h]
  next h => simp [h, Binds, valueAt?]

/-- The environments differ in the values of variables at most. -/
structure SameNames (first second : Environment) : Prop where
  sameShape : first.SameShape second
  binds_iff : ∀ index name, first.Binds index name ↔ second.Binds index name

theorem SameNames.pop (h : SameNames first second) (caller : Nat) :
    SameNames (first.pop caller) (second.pop caller) where
  sameShape := h.sameShape.pop caller
  binds_iff index name := by
    rw [binds_pop_iff, binds_pop_iff, h.binds_iff, h.sameShape.size_eq]

/-- Setting a variable that is bound. -/
theorem sameNames_setAt (h : environment.Binds index name) (value : Int64) :
    SameNames (environment.setAt index name value) environment where
  sameShape := setAt_sameShape environment index name value
  binds_iff other key := by
    rw [binds_setAt_iff]
    constructor
    · rintro (hbound | ⟨rfl, rfl, -⟩)
      · exact hbound
      · exact h
    · exact .inl

/-- Nothing that is set in the last frame is left when that is dropped. -/
theorem pop_setAt_last (hlast : environment.frames.size = index + 1) (hpos : 0 < index)
    (caller : Nat) :
    (environment.setAt index name value).pop caller = environment.pop caller := by
  have hsize : (environment.setAt index name value).frames.size = environment.frames.size :=
    (setAt_sameShape environment index name value).size_eq
  have hframes : ((environment.setAt index name value).pop caller).frames =
      (environment.pop caller).frames := by
    refine Array.ext_getElem? fun other => ?_
    rw [getElem?_pop, getElem?_pop, hsize]
    by_cases hother : other + 1 = environment.frames.size
    · rw [if_pos (by omega), if_pos (by omega)]
    · rw [if_neg (by omega), if_neg (by omega), setAt, Array.getElem?_modify,
        if_neg (by omega)]
  exact congrArg (Environment.mk · caller) hframes

/-- What becomes of the names of an environment: none is unbound, and the current frame is the only
one where new names are bound, which are all of some class. -/
structure Widens (allowed : String → Prop) (before after : Environment) : Prop where
  sameShape : after.SameShape before
  kept : ∀ index name, before.Binds index name → after.Binds index name
  added : ∀ index name, after.Binds index name →
    before.Binds index name ∨ (index = before.current ∧ allowed name)

namespace Widens

theorem refl (allowed : String → Prop) (environment : Environment) :
    Widens allowed environment environment :=
  ⟨.refl environment, fun _ _ => id, fun _ _ => .inl⟩

theorem of_sameNames (h : Widens allowed before first) (hsame : SameNames second first) :
    Widens allowed before second where
  sameShape := hsame.sameShape.trans h.sameShape
  kept index name hbound := (hsame.binds_iff index name).mpr (h.kept index name hbound)
  added index name hbound := h.added index name ((hsame.binds_iff index name).mp hbound)

theorem setAt_current (h : Widens allowed before after) (hname : allowed name) (value : Int64) :
    Widens allowed before (after.setAt after.current name value) where
  sameShape := (setAt_sameShape after after.current name value).trans h.sameShape
  kept index key hbound := (binds_setAt_iff after).mpr (.inl (h.kept index key hbound))
  added index key hbound := by
    rcases (binds_setAt_iff after).mp hbound with hbound | ⟨rfl, rfl, -⟩
    · exact h.added index key hbound
    · exact .inr ⟨h.sameShape.current_eq, hname⟩

end Widens

end Environment

namespace Machine

variable {allowed : String → Prop} {base environment other : Environment} {task : Pending}
  {pending : List Pending}

/-! ## Calls in progress -/

/-- No call is in progress. -/
def Outermost (pending : List Pending) : Prop :=
  ∀ caller, Pending.leave caller ∉ pending

theorem Outermost.tail (h : Outermost (task :: pending)) : Outermost pending :=
  fun caller hmem => h caller (List.mem_cons_of_mem _ hmem)

theorem Outermost.cons (htask : ∀ caller, task ≠ .leave caller) (h : Outermost pending) :
    Outermost (task :: pending) := by
  intro caller hmem
  rcases List.mem_cons.mp hmem with rfl | hmem
  · exact htask caller rfl
  · exact h caller hmem

/-- Once the calls that are pending are left, names have been added to the base only where they may
be.  The frame of every call is the last one, and is not the global one. -/
def Layered (allowed : String → Prop) (base : Environment) : List Pending → Environment → Prop
  | [], environment => base.Widens allowed environment
  | .leave caller :: pending, environment =>
    environment.frames.size = environment.current + 1 ∧ 0 < environment.current ∧
      Layered allowed base pending (environment.pop caller)
  | _ :: pending, environment => Layered allowed base pending environment

namespace Layered

theorem cons (htask : ∀ caller, task ≠ .leave caller) :
    Layered allowed base (task :: pending) environment ↔
      Layered allowed base pending environment := by
  cases task with
  | leave caller => exact absurd rfl (htask caller)
  | _ => exact Iff.rfl

theorem of_sameNames (h : Layered allowed base pending environment)
    (hsame : other.SameNames environment) : Layered allowed base pending other := by
  induction pending generalizing environment other with
  | nil => exact h.of_sameNames hsame
  | cons task pending ih =>
      cases task with
      | leave caller =>
          obtain ⟨hlast, hpos, hbelow⟩ := h
          rw [← hsame.sameShape.current_eq] at hlast hpos
          rw [← hsame.sameShape.size_eq] at hlast
          exact ⟨hlast, hpos, ih hbelow (hsame.pop caller)⟩
      | _ => exact ih h hsame

theorem size_pos (hbase : base.WellFormed) (h : Layered allowed base pending environment) :
    0 < environment.frames.size := by
  induction pending with
  | nil =>
      rw [h.sameShape.size_eq]
      exact hbase.size_pos
  | cons task pending ih =>
      cases task with
      | leave caller => exact h.1 ▸ Nat.succ_pos _
      | _ => exact ih h

theorem enter (hbase : base.WellFormed) (h : Layered allowed base pending environment)
    (bindings : Table Int64) :
    Layered allowed base (.leave environment.current :: pending) (environment.push bindings) := by
  have hpos := h.size_pos hbase
  refine ⟨Array.size_push .., hpos, ?_⟩
  rwa [Environment.pop_push hpos]

/-- An assignment to a name that is bound binds no other.  If the name is not bound, it gets bound
in the frame of the innermost call, which will be dropped, unless no call is in progress. -/
theorem assign (h : Layered allowed base pending environment) {name : String} {index : Nat}
    (htarget : environment.target? name = some index) (hname : Outermost pending → allowed name)
    (value : Int64) : Layered allowed base pending (environment.setAt index name value) := by
  cases hfind : environment.find name with
  | astray => simp [Environment.target?, hfind] at htarget
  | found found =>
      rw [Environment.target?, hfind] at htarget
      cases htarget
      exact h.of_sameNames (Environment.sameNames_setAt (Environment.binds_of_find hfind) value)
  | unbound =>
      rw [Environment.target?, hfind] at htarget
      cases htarget
      clear hfind
      induction pending with
      | nil => exact h.setAt_current (hname fun _ => List.not_mem_nil) value
      | cons task pending ih =>
          cases task with
          | leave caller =>
              obtain ⟨hlast, hpos, hbelow⟩ := h
              refine ⟨?_, hpos, ?_⟩
              · rw [(Environment.setAt_sameShape environment _ name value).size_eq]
                exact hlast
              · rwa [Environment.pop_setAt_last hlast hpos]
          | _ => exact ih h fun houter => hname (houter.cons (by simp))

end Layered

end Machine

/-! ## Assignments to come -/

/-- All assignments that the task has yet to make are to names of some class. -/
def Pending.AssignsOnly (allowed : String → Prop) : Pending → Prop
  | assign name => allowed name
  | rightOperand _ right => right.AssignsOnly allowed
  | sequence rest => ∀ expr ∈ rest, expr.AssignsOnly allowed
  | branch thenBody elseBody =>
    thenBody.AssignsOnly allowed ∧ ∀ expr ∈ elseBody, expr.AssignsOnly allowed
  | test condition body | again condition body =>
    condition.AssignsOnly allowed ∧ body.AssignsOnly allowed
  | argument _ _ _ rest => ∀ argument ∈ rest, argument.2.AssignsOnly allowed
  | apply _ _ | leave _ | print => True

/-- All assignments that are about to be made are to names of some class. -/
def Focus.AssignsOnly (allowed : String → Prop) : Focus → Prop
  | evaluate expr => expr.AssignsOnly allowed
  | outcome _ | stuck => True

namespace Machine

/-- What is done when no call is in progress makes assignments to names of some class only. -/
def AllAssignOnly (allowed : String → Prop) : List Pending → Prop
  | [] => True
  | task :: pending =>
    (Outermost pending → task.AssignsOnly allowed) ∧ AllAssignOnly allowed pending

/-- An evaluation that began in the frames of `base`, with assignments to names of some class. -/
structure Confined (allowed : String → Prop) (base : Environment) (machine : Machine) : Prop where
  focus : Outermost machine.pending → machine.focus.AssignsOnly allowed
  pending : AllAssignOnly allowed machine.pending
  layered : Layered allowed base machine.pending machine.session.environment

namespace Confined

variable {allowed : String → Prop} {base : Environment} {task : Pending} {pending : List Pending}
  {session : Session}

theorem outcome (result : Except RunFault Int64) (hpending : AllAssignOnly allowed pending)
    (hlayered : Layered allowed base pending session.environment) :
    Confined allowed base ⟨.outcome result, pending, session⟩ :=
  ⟨fun _ => trivial, hpending, hlayered⟩

/-- The machine goes on with a part of what it was doing, and the rest is pending. -/
theorem evaluate {expr : Expr} (htask : ∀ caller, task ≠ .leave caller)
    (hexpr : Outermost pending → expr.AssignsOnly allowed)
    (hrest : Outermost pending → task.AssignsOnly allowed)
    (hpending : AllAssignOnly allowed pending)
    (hlayered : Layered allowed base pending session.environment) :
    Confined allowed base ⟨.evaluate expr, task :: pending, session⟩ :=
  ⟨fun houter => hexpr houter.tail, ⟨hrest, hpending⟩, (Layered.cons htask).mpr hlayered⟩

theorem call (hbase : base.WellFormed) (function : Function) (bound : Table Int64)
    (arguments : Arguments)
    (harguments : Outermost pending → ∀ argument ∈ arguments, argument.2.AssignsOnly allowed)
    (hpending : AllAssignOnly allowed pending)
    (hlayered : Layered allowed base pending session.environment) :
    Confined allowed base (Machine.call function bound arguments pending session) := by
  unfold Machine.call
  split
  next parameter argument rest =>
    exact evaluate (by simp) (fun houter => harguments houter _ List.mem_cons_self)
      (fun houter _ hmem => harguments houter _ (List.mem_cons_of_mem _ hmem)) hpending hlayered
  next =>
    split
    · exact outcome _ hpending hlayered
    · -- The body of the function is not part of the expression, but a call is in progress now.
      refine ⟨fun houter => ?_, ⟨fun _ => trivial, hpending⟩, hlayered.enter hbase bound⟩
      exact absurd List.mem_cons_self (houter session.environment.current)

theorem descend (hbase : base.WellFormed) {expr : Expr}
    (hexpr : Outermost pending → expr.AssignsOnly allowed)
    (hpending : AllAssignOnly allowed pending)
    (hlayered : Layered allowed base pending session.environment) :
    Confined allowed base (Machine.descend expr pending session) := by
  have hchild : ∀ child ∈ expr.children, Outermost pending → child.AssignsOnly allowed :=
    fun child hmem houter => (hexpr houter).of_mem_children hmem
  cases expr with
  | number value => exact outcome _ hpending hlayered
  | symbol name =>
      simp only [Machine.descend]
      cases session.environment.lookup name with
      | found | unbound => exact outcome _ hpending hlayered
      | astray => exact ⟨fun _ => trivial, hpending, hlayered⟩
  | assign name value =>
      exact evaluate (by simp) (hchild value (by simp [Expr.children]))
        (fun houter => (hexpr houter).allows) hpending hlayered
  | binary op left right =>
      exact evaluate (by simp) (hchild left (by simp [Expr.children]))
        (hchild right (by simp [Expr.children])) hpending hlayered
  | block body =>
      cases body with
      | nil => exact outcome _ hpending hlayered
      | cons first rest =>
          exact evaluate (by simp) (hchild first List.mem_cons_self)
            (fun houter expr hmem => hchild expr (List.mem_cons_of_mem _ hmem) houter)
            hpending hlayered
  | ifThen condition thenBody =>
      exact evaluate (by simp) (hchild condition (by simp [Expr.children]))
        (fun houter => ⟨hchild thenBody (by simp [Expr.children]) houter, by simp⟩)
        hpending hlayered
  | ifElse condition thenBody elseBody =>
      refine evaluate (by simp) (hchild condition (by simp [Expr.children]))
        (fun houter => ⟨?_, ?_⟩) hpending hlayered
      · exact hchild thenBody (by simp [Expr.children]) houter
      · rintro _ ⟨⟩
        exact hchild elseBody (by simp [Expr.children]) houter
  | loop condition body =>
      have hcondition := hchild condition (by simp [Expr.children])
      exact evaluate (by simp) hcondition
        (fun houter => ⟨hcondition houter, hchild body (by simp [Expr.children]) houter⟩)
        hpending hlayered
  | call callee arguments =>
      simp only [Machine.descend]
      cases hresolve : session.resolve callee arguments with
      | error fault => exact outcome _ hpending hlayered
      | ok resolved =>
          have hresolved := (Session.get?_of_resolve hresolve).2
          exact call hbase resolved.1 .empty resolved.2
            (fun houter argument hmem => hchild _ (hresolved argument hmem) houter)
            hpending hlayered
  | labelledCall callee arguments =>
      simp only [Machine.descend]
      cases hresolve : session.resolveLabelled callee arguments with
      | error fault => exact outcome _ hpending hlayered
      | ok resolved =>
          have hresolved := (Session.get?_of_resolveLabelled hresolve).2
          exact call hbase resolved.1 .empty resolved.2
            (fun houter argument hmem =>
              hchild _ (List.mem_map_of_mem (hresolved argument hmem)) houter)
            hpending hlayered
  | println argument =>
      exact evaluate (by simp) (hchild argument (by simp [Expr.children])) (fun _ => trivial)
        hpending hlayered

theorem resume (hbase : base.WellFormed) {task : Pending}
    (hpending : AllAssignOnly allowed (task :: pending))
    (hlayered : Layered allowed base (task :: pending) session.environment) (value : Int64) :
    Confined allowed base (Machine.resume value task pending session) := by
  obtain ⟨htask, hpending⟩ := hpending
  cases task with
  | assign name =>
      have hbelow := (Layered.cons (by simp)).mp hlayered
      simp only [Machine.resume]
      cases htarget : session.environment.target? name with
      | none => exact ⟨fun _ => trivial, hpending, hbelow⟩
      | some index => exact outcome _ hpending (hbelow.assign htarget htask value)
  | sequence rest =>
      have hbelow := (Layered.cons (by simp)).mp hlayered
      cases rest with
      | nil => exact outcome _ hpending hbelow
      | cons first rest =>
          exact evaluate (by simp) (fun houter => htask houter _ List.mem_cons_self)
            (fun houter _ hmem => htask houter _ (List.mem_cons_of_mem _ hmem)) hpending hbelow
  | branch thenBody elseBody =>
      have hbelow := (Layered.cons (by simp)).mp hlayered
      simp only [Machine.resume]
      split
      · exact ⟨fun houter => (htask houter).1, hpending, hbelow⟩
      · cases elseBody with
        | none => exact outcome _ hpending hbelow
        | some elseBody => exact ⟨fun houter => (htask houter).2 _ rfl, hpending, hbelow⟩
  | test condition body =>
      have hbelow := (Layered.cons (by simp)).mp hlayered
      simp only [Machine.resume]
      split
      · exact evaluate (by simp) (fun houter => (htask houter).2) htask hpending hbelow
      · exact outcome _ hpending hbelow
  | again condition body =>
      exact evaluate (by simp) (fun houter => (htask houter).1) htask hpending
        ((Layered.cons (by simp)).mp hlayered)
  | argument function bound parameter rest =>
      exact call hbase function (bound.insert parameter value) rest htask hpending
        ((Layered.cons (by simp)).mp hlayered)
  | rightOperand op right =>
      exact evaluate (by simp) htask (fun _ => trivial) hpending
        ((Layered.cons (by simp)).mp hlayered)
  | leave caller => exact outcome _ hpending hlayered.2.2
  | apply | print => exact outcome _ hpending ((Layered.cons (by simp)).mp hlayered)

/-- One step. -/
theorem step (hbase : base.WellFormed) {machine : Machine} (h : Confined allowed base machine) :
    Confined allowed base machine.step := by
  obtain ⟨focus, pending, session⟩ := machine
  obtain ⟨hfocus, hpending, hlayered⟩ := h
  cases focus with
  | evaluate expr => exact descend hbase hfocus hpending hlayered
  | stuck => exact ⟨hfocus, hpending, hlayered⟩
  | outcome result =>
      cases pending with
      | nil => cases result <;> exact outcome _ hpending hlayered
      | cons task pending =>
          cases result with
          | ok value => exact resume hbase hpending hlayered value
          | error fault =>
              -- A fault makes no assignments, and it leaves the calls that it passes by.
              cases task with
              | leave caller => exact outcome _ hpending.2 hlayered.2.2
              | _ => exact outcome _ hpending.2 ((Layered.cons (by simp)).mp hlayered)

theorem afterSteps (hbase : base.WellFormed) {machine : Machine}
    (h : Confined allowed base machine) (steps : Nat) :
    Confined allowed base (machine.afterSteps steps) := by
  induction steps generalizing machine with
  | zero => exact h
  | succ steps ih => exact ih (h.step hbase)

end Confined

end Machine

namespace Session

/-- An evaluation binds none but the names that the expression assigns to. -/
theorem widens_of_evaluate {session after : Session} {fuel : Nat} {expr : Expr}
    {result : Except RunFault Int64} (hwell : session.environment.WellFormed)
    (h : evaluate fuel expr session = some (result, after)) :
    session.environment.Widens expr.Assigns after.environment := by
  obtain ⟨steps, -, hend⟩ := Machine.run_eq_some_iff.mp h
  have hstart : Machine.Confined expr.Assigns session.environment ⟨.evaluate expr, [], session⟩ :=
    ⟨fun _ _ => id, trivial, .refl expr.Assigns session.environment⟩
  have hafter := (hstart.afterSteps hwell steps).layered
  rwa [hend] at hafter

end Session

/-- In any session that occurs, an evaluation that comes to its end binds and unbinds no name in any
frame but the current one.  There it unbinds none, and it binds those only to which the expression
itself has an assignment; a call that is read from a source has none. -/
theorem evaluation_keeps_names :
    (∀ session : Session, session.Occurs → session.environment.WellFormed) ∧
    ∀ (session : Session) (fuel : Nat) (expr : Expr) (result : Except RunFault Int64)
      (after : Session), session.environment.WellFormed →
      Session.evaluate fuel expr session = some (result, after) →
      (∀ index name, index ≠ session.environment.current →
        (after.environment.Binds index name ↔ session.environment.Binds index name)) ∧
      (∀ name, session.environment.Binds session.environment.current name →
        after.environment.Binds session.environment.current name) ∧
      (∀ name, after.environment.Binds session.environment.current name →
        ¬ session.environment.Binds session.environment.current name → expr.Assigns name) ∧
      (expr.IsCall → expr.Parsed → ∀ index name,
        (after.environment.Binds index name ↔ session.environment.Binds index name)) := by
  refine ⟨fun session => Session.Occurs.wellFormed, ?_⟩
  intro session fuel expr result after hwell hevaluate
  obtain ⟨-, hkept, hadded⟩ := Session.widens_of_evaluate hwell hevaluate
  refine ⟨fun index name hother => ⟨fun hbound => ?_, hkept index name⟩,
    fun name => hkept _ name, fun name hbound hnew => ?_,
    fun hcall hparsed index name => ⟨fun hbound => ?_, hkept index name⟩⟩
  · rcases hadded index name hbound with hbound | ⟨hcurrent, -⟩
    · exact hbound
    · exact absurd hcurrent hother
  · rcases hadded _ name hbound with hbound | ⟨-, hassigns⟩
    · exact absurd hbound hnew
    · exact hassigns
  · rcases hadded index name hbound with hbound | ⟨-, hassigns⟩
    · exact hbound
    · exact absurd hassigns (hparsed.not_assigns hcall name)

/-- A function that sets a global variable and binds a name of its own, called in an assignment to a
third one and by itself. -/
theorem evaluation_keeps_names_of_assigning_call : ∃ session after called : Session,
    session.environment.WellFormed ∧
      Session.evaluate 20 (.assign "z" (.call "f" [])) session = some (.ok 3, after) ∧
      after.environment.valueAt? 0 "x" = some 2 ∧ after.environment.Binds 0 "z" ∧
      ¬ after.environment.Binds 0 "y" ∧
      Session.evaluate 20 (.call "f" []) session = some (.ok 3, called) ∧
      ∀ index name, called.environment.Binds index name ↔
        session.environment.Binds index name := by
  obtain ⟨session, hregister, hcurrent, after, hassign, hx, hz, hy, called, hcall⟩ :
      ∃ session, (Session.Operation.register [.global "x" (.number 1), .function ⟨"f", [],
          .block [.assign "x" (.number 2), .assign "y" (.number 3)]⟩]).perform 2
          (.initial 1 .silent) = some session ∧ session.environment.current = 0 ∧
        ∃ after, Session.evaluate 20 (.assign "z" (.call "f" [])) session =
          some (.ok 3, after) ∧ after.environment.valueAt? 0 "x" = some 2 ∧
          after.environment.Binds 0 "z" ∧ ¬ session.environment.Binds 0 "y" ∧
        ∃ called, Session.evaluate 20 (.call "f" []) session = some (.ok 3, called) :=
    ⟨_, rfl, rfl, _, rfl, rfl, rfl, nofun, _, rfl⟩
  have hoccurs : session.Occurs := .perform _ 2 (.initial 1 .silent) hregister
  have hwell := evaluation_keeps_names.1 session hoccurs
  have hparsed : (Expr.call "f" []).Parsed := by
    have hparse : parseStatements "f();" "shell" = .ok [.call "f" []] := by cbv
    exact .statements hparse (List.mem_singleton.mpr rfl) .refl
  have hother : ¬ (Expr.assign "z" (.call "f" [])).Assigns "y" := by
    rw [Expr.assigns_iff]
    rintro (⟨value, heq⟩ | ⟨child, hchild, hassigns⟩)
    · simp at heq
    · obtain rfl := List.mem_singleton.mp hchild
      exact Expr.not_assigns_call_nil "f" "y" hassigns
  obtain ⟨-, -, hnew, -⟩ := evaluation_keeps_names.2 session 20 _ _ after hwell hassign
  rw [hcurrent] at hnew
  obtain ⟨-, -, -, hsame⟩ := evaluation_keeps_names.2 session 20 _ _ called hwell hcall
  refine ⟨session, after, called, hwell, hassign, hx, hz, fun hbound => ?_, hcall,
    hsame trivial hparsed⟩
  exact hother (hnew "y" hbound hy)

end IntScript
