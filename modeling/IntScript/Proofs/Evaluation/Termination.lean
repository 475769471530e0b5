import IntScript.Proofs.Evaluation.Steps

/-!
# Without loops evaluation ends

Functions may call each other in any way, without any base case: as long as neither the expression
nor any function has a loop, evaluation comes to its end, with a value or with a fault.  What bounds
the recursion is the room that the limit on calls leaves, and then the size of the expression.  This
works because every evaluation gives back the frames it has taken, so that the arguments of a call,
the lines of a block and the operands of an operator all find the same room.

`Machine.ComesBack room expr` says that the evaluation of an expression, wherever there is that much
room, gets to what was pending before it, or fails.  It does not mention how many steps that takes
nor what the value is, so that it composes along the pending tasks.

* `Machine.comesBack_of_hasLoop_eq_false` : expressions without loops come back.
* `evaluation_ends_without_loops` : the main result.
-/

namespace IntScript

/-! ## Loops -/

namespace Expr

mutual

/-- Whether there is a loop anywhere in the expression. -/
def hasLoop : Expr → Bool
  | number _ | symbol _ => false
  | assign _ value => value.hasLoop
  | binary _ left right => left.hasLoop || right.hasLoop
  | block body => anyHasLoop body
  | ifThen condition thenBody => condition.hasLoop || thenBody.hasLoop
  | ifElse condition thenBody elseBody =>
    condition.hasLoop || thenBody.hasLoop || elseBody.hasLoop
  | loop _ _ => true
  | call _ arguments => anyHasLoop arguments
  | labelledCall _ arguments => anyLabelledHasLoop arguments
  | println argument => argument.hasLoop

/-- Whether there is a loop in any of the expressions. -/
def anyHasLoop : List Expr → Bool
  | [] => false
  | expr :: rest => expr.hasLoop || anyHasLoop rest

/-- Whether there is a loop in any of the labelled expressions. -/
def anyLabelledHasLoop : List (String × Expr) → Bool
  | [] => false
  | (_, expr) :: rest => expr.hasLoop || anyLabelledHasLoop rest

end

theorem anyHasLoop_eq_false_iff {exprs : List Expr} :
    anyHasLoop exprs = false ↔ ∀ expr ∈ exprs, expr.hasLoop = false := by
  induction exprs with
  | nil => simp [anyHasLoop]
  | cons expr rest ih => rw [anyHasLoop, Bool.or_eq_false_iff, ih, List.forall_mem_cons]

theorem anyLabelledHasLoop_eq_false_iff {exprs : List (String × Expr)} :
    anyLabelledHasLoop exprs = false ↔ ∀ expr ∈ exprs, expr.2.hasLoop = false := by
  induction exprs with
  | nil => simp [anyLabelledHasLoop]
  | cons expr rest ih => rw [anyLabelledHasLoop, Bool.or_eq_false_iff, ih, List.forall_mem_cons]

/-- Induction over an expression and all that it is made of. -/
theorem induct {P : Expr → Prop} (number : ∀ value, P (.number value))
    (symbol : ∀ name, P (.symbol name))
    (assign : ∀ name value, P value → P (.assign name value))
    (binary : ∀ op left right, P left → P right → P (.binary op left right))
    (block : ∀ body, (∀ expr ∈ body, P expr) → P (.block body))
    (ifThen : ∀ condition thenBody, P condition → P thenBody → P (.ifThen condition thenBody))
    (ifElse : ∀ condition thenBody elseBody, P condition → P thenBody → P elseBody →
      P (.ifElse condition thenBody elseBody))
    (loop : ∀ condition body, P condition → P body → P (.loop condition body))
    (call : ∀ callee arguments, (∀ argument ∈ arguments, P argument) →
      P (.call callee arguments))
    (labelledCall : ∀ callee arguments,
      (∀ argument ∈ arguments, P argument.2) → P (.labelledCall callee arguments))
    (println : ∀ argument, P argument → P (.println argument)) (expr : Expr) : P expr :=
  @Expr.rec P (fun exprs => ∀ expr ∈ exprs, P expr) (fun exprs => ∀ expr ∈ exprs, P expr.2)
    (fun expr => P expr.2) number symbol assign binary block ifThen ifElse loop call labelledCall
    println (fun _ h => absurd h List.not_mem_nil)
    (fun _ _ hfirst hothers => List.forall_mem_cons.mpr ⟨hfirst, hothers⟩)
    (fun _ h => absurd h List.not_mem_nil)
    (fun _ _ hfirst hothers => List.forall_mem_cons.mpr ⟨hfirst, hothers⟩)
    (fun _ _ h => h) expr

end Expr

/-- Whether there is a loop in the definition. -/
def Definition.hasLoop : Definition → Bool
  | global _ value => value.hasLoop
  | function f => f.body.hasLoop

/-! ## Sessions without loops -/

namespace Session

/-- No search goes astray, and no function has a loop. -/
structure LoopFree (session : Session) : Prop where
  wellFormed : session.environment.WellFormed
  hasLoop_eq_false : ∀ name function,
    session.functions.get? name = some function → function.body.hasLoop = false

/-- The sessions differ in the values of variables and in the output at most. -/
structure Restores (before after : Session) : Prop where
  sameShape : after.environment.SameShape before.environment
  functions_eq : after.functions = before.functions
  callLimit_eq : after.callLimit = before.callLimit

namespace Restores

variable {first second third : Session}

theorem refl (session : Session) : Restores session session :=
  ⟨.refl _, rfl, rfl⟩

theorem trans (h : Restores first second) (h' : Restores second third) : Restores first third :=
  ⟨h'.sameShape.trans h.sameShape, h'.functions_eq.trans h.functions_eq,
    h'.callLimit_eq.trans h.callLimit_eq⟩

theorem setAt (h : Restores first second) (index : Nat) (name : String) (value : Int64) :
    Restores first (second.setAt index name value) :=
  ⟨(Environment.setAt_sameShape _ index name value).trans h.sameShape, h.functions_eq,
    h.callLimit_eq⟩

theorem print (h : Restores first second) (value : Int64) : Restores first (second.print value) :=
  ⟨h.sameShape, h.functions_eq, h.callLimit_eq⟩

/-- A call that was entered and is left again. -/
theorem leave {bindings : Table Int64} (hwell : first.environment.WellFormed)
    (h : Restores (first.enter bindings) second) :
    Restores first (second.leave first.environment.current) where
  sameShape := by
    have hpop := h.sameShape.pop first.environment.current
    rwa [Session.enter, Environment.pop_push hwell.size_pos] at hpop
  functions_eq := h.functions_eq
  callLimit_eq := h.callLimit_eq

theorem loopFree (h : Restores first second) (hfirst : first.LoopFree) : second.LoopFree where
  wellFormed := h.sameShape.symm.wellFormed hfirst.wellFormed
  hasLoop_eq_false := by rw [h.functions_eq]; exact hfirst.hasLoop_eq_false

theorem depth_eq (h : Restores first second) :
    second.environment.depth = first.environment.depth := by
  rw [Environment.depth, Environment.depth, h.sameShape.size_eq]

end Restores

end Session

open Session (Restores)

namespace Machine

/-! ## Machines that come to their end -/

/-- The machine comes to its end after some steps. -/
def Ends (machine : Machine) : Prop :=
  ∃ steps result session, afterSteps steps machine = ⟨.outcome result, [], session⟩

theorem Ends.of_step {machine : Machine} (h : machine.step.Ends) : machine.Ends := by
  obtain ⟨steps, result, session, hend⟩ := h
  exact ⟨steps + 1, result, session, hend⟩

theorem ends_outcome (result : Except RunFault Int64) (session : Session) :
    Ends ⟨.outcome result, [], session⟩ :=
  ⟨0, result, session, rfl⟩

theorem ends_error (fault : RunFault) (pending : List Pending) (session : Session) :
    Ends ⟨.outcome (.error fault), pending, session⟩ :=
  ⟨pending.length, .error fault, unwindAll pending session, afterSteps_error fault pending session⟩

/-- The session is without loops, and at most `room` further calls can be entered. -/
structure HasRoom (room : Nat) (session : Session) : Prop where
  loopFree : session.LoopFree
  callLimit_le : session.callLimit ≤ session.environment.depth + room

/-- Whatever value is handed to the pending tasks, in a session that differs from this one in the
values of variables and in the output at most, the machine comes to its end. -/
def EndsWithValue (pending : List Pending) (session : Session) : Prop :=
  ∀ value after, Restores session after → Ends ⟨.outcome (.ok value), pending, after⟩

/-- The evaluation of the expression, where there is so much room, fails or gets to the pending
tasks. -/
def ComesBack (room : Nat) (expr : Expr) : Prop :=
  ∀ ⦃pending : List Pending⦄ ⦃session : Session⦄, HasRoom room session →
    EndsWithValue pending session → Ends ⟨.evaluate expr, pending, session⟩

section

variable {room : Nat} {session after : Session} {pending : List Pending}

theorem HasRoom.of_restores (h : HasRoom room session) (hafter : Restores session after) :
    HasRoom room after where
  loopFree := hafter.loopFree h.loopFree
  callLimit_le := by rw [hafter.callLimit_eq, hafter.depth_eq]; exact h.callLimit_le

theorem EndsWithValue.of_restores (h : EndsWithValue pending session)
    (hafter : Restores session after) : EndsWithValue pending after :=
  fun value last hlast => h value last (hafter.trans hlast)

/-- There is less room in a call. -/
theorem HasRoom.enter (h : HasRoom (room + 1) session) (bindings : Table Int64) :
    HasRoom room (session.enter bindings) where
  loopFree := ⟨h.loopFree.wellFormed.push bindings, h.loopFree.hasLoop_eq_false⟩
  callLimit_le := by
    have hle := h.callLimit_le
    have hpos := h.loopFree.wellFormed.size_pos
    simp only [Environment.depth] at hle
    simp only [Session.enter, Environment.depth, Environment.push, Array.size_push]
    omega

/-! ## Calls -/

/-- A call comes back if its arguments do, and if the function does where there is less room. -/
theorem ends_call {function : Function}
    (hbody : ∀ smaller < room, ComesBack smaller function.body) :
    ∀ {arguments : Arguments} {bound : Table Int64} {session : Session},
      (∀ argument ∈ arguments, ComesBack room argument.2) → HasRoom room session →
      EndsWithValue pending session → Ends (call function bound arguments pending session) := by
  intro arguments
  induction arguments with
  | nil =>
      intro bound session _ hroom hpending
      unfold call
      by_cases hfull : session.isFull = true
      · rw [if_pos hfull]
        exact ends_error _ pending session
      · rw [if_neg hfull]
        have hlt : session.environment.depth < session.callLimit := by
          simpa [Session.isFull] using hfull
        have hle := hroom.callLimit_le
        obtain ⟨smaller, rfl⟩ : ∃ smaller, room = smaller + 1 := ⟨room - 1, by omega⟩
        refine hbody smaller (Nat.lt_succ_self smaller) (hroom.enter bound) ?_
        intro value after hafter
        exact .of_step (hpending value _ (hafter.leave hroom.loopFree.wellFormed))
  | cons argument rest ih =>
      intro bound session harguments hroom hpending
      rw [List.forall_mem_cons] at harguments
      refine harguments.1 hroom fun value after hafter => .of_step ?_
      exact ih harguments.2 (hroom.of_restores hafter) (hpending.of_restores hafter)

/-! ## Expressions -/

/-- The rest of a block comes back if all its expressions do. -/
theorem endsWithValue_sequence {rest : List Expr} (hrest : ∀ expr ∈ rest, ComesBack room expr) :
    ∀ {session : Session}, HasRoom room session → EndsWithValue pending session →
      EndsWithValue (.sequence rest :: pending) session := by
  induction rest with
  | nil => exact fun _ hpending value after hafter => .of_step (hpending value after hafter)
  | cons next rest ih =>
      intro session hroom hpending value after hafter
      rw [List.forall_mem_cons] at hrest
      have hroom' := hroom.of_restores hafter
      exact .of_step (hrest.1 hroom' (ih hrest.2 hroom' (hpending.of_restores hafter)))

/-- One of the two bodies of a conditional is evaluated, or none. -/
theorem endsWithValue_branch {thenBody : Expr} {elseBody : Option Expr}
    (hthen : ComesBack room thenBody) (helse : ∀ expr ∈ elseBody, ComesBack room expr)
    (hroom : HasRoom room session) (hpending : EndsWithValue pending session) :
    EndsWithValue (.branch thenBody elseBody :: pending) session := by
  intro value after hafter
  have hroom' := hroom.of_restores hafter
  have hpending' := hpending.of_restores hafter
  refine .of_step ?_
  simp only [step, resume]
  split
  · exact hthen hroom' hpending'
  · cases elseBody with
    | none => exact hpending 1 after hafter
    | some elseBody => exact helse elseBody rfl hroom' hpending'

/-- Expressions without loops come back, whatever the functions are that they call. -/
theorem comesBack_of_hasLoop_eq_false (room : Nat) :
    ∀ expr : Expr, expr.hasLoop = false → ComesBack room expr := by
  induction room using Nat.strongRecOn with
  | ind room ihRoom =>
      -- The body of a function is evaluated where there is less room, so that it may be anything.
      have hfunction : ∀ {session : Session} {callee : String} {function : Function},
          HasRoom room session → session.functions.get? callee = some function →
          ∀ smaller < room, ComesBack smaller function.body :=
        fun hroom hget smaller hlt =>
          ihRoom smaller hlt _ (hroom.loopFree.hasLoop_eq_false _ _ hget)
      refine Expr.induct ?number ?symbol ?assign ?binary ?block ?ifThen ?ifElse ?loop ?call
        ?labelledCall ?println
      case number =>
        exact fun value _ pending session _ hpending => .of_step (hpending value session (.refl _))
      case symbol =>
        intro name _ pending session hroom hpending
        have hlookup := hroom.loopFree.wellFormed.lookup_ne_astray name
        refine .of_step ?_
        simp only [step, descend]
        cases hsearch : session.environment.lookup name with
        | found value => exact hpending value session (.refl _)
        | unbound => exact ends_error _ pending session
        | astray => exact absurd hsearch hlookup
      case assign =>
        intro name value ih hloop pending session hroom hpending
        refine .of_step (ih hloop hroom fun number after hafter => .of_step ?_)
        have htarget := (hroom.of_restores hafter).loopFree.wellFormed.target?_ne_none name
        simp only [step, resume]
        cases hsearch : after.environment.target? name with
        | none => exact absurd hsearch htarget
        | some index => exact hpending number _ (hafter.setAt index name number)
      case binary =>
        intro op left right ihLeft ihRight hloop pending session hroom hpending
        rw [Expr.hasLoop, Bool.or_eq_false_iff] at hloop
        refine .of_step (ihLeft hloop.1 hroom fun first mid hmid => .of_step ?_)
        refine ihRight hloop.2 (hroom.of_restores hmid) fun second after hafter => .of_step ?_
        simp only [step, resume]
        cases op.apply first second with
        | error fault => exact ends_error fault pending after
        | ok value => exact hpending value after (hmid.trans hafter)
      case block =>
        intro body ih hloop pending session hroom hpending
        rw [Expr.hasLoop, Expr.anyHasLoop_eq_false_iff] at hloop
        have hbody : ∀ expr ∈ body, ComesBack room expr := fun expr h => ih expr h (hloop expr h)
        refine .of_step ?_
        cases body with
        | nil => exact hpending 0 session (.refl _)
        | cons first rest =>
            rw [List.forall_mem_cons] at hbody
            exact hbody.1 hroom (endsWithValue_sequence hbody.2 hroom hpending)
      case ifThen =>
        intro condition thenBody ihCondition ihThen hloop pending session hroom hpending
        rw [Expr.hasLoop, Bool.or_eq_false_iff] at hloop
        exact .of_step (ihCondition hloop.1 hroom
          (endsWithValue_branch (ihThen hloop.2) (by simp) hroom hpending))
      case ifElse =>
        intro condition thenBody elseBody ihCondition ihThen ihElse hloop pending session hroom
          hpending
        rw [Expr.hasLoop, Bool.or_eq_false_iff, Bool.or_eq_false_iff] at hloop
        refine .of_step (ihCondition hloop.1.1 hroom
          (endsWithValue_branch (ihThen hloop.1.2) ?_ hroom hpending))
        rintro _ hsome
        obtain rfl := Option.some.inj hsome
        exact ihElse hloop.2
      case loop => exact fun _ _ _ _ hloop => absurd hloop Bool.true_eq_false.mp
      case call =>
        intro callee arguments ih hloop pending session hroom hpending
        rw [Expr.hasLoop, Expr.anyHasLoop_eq_false_iff] at hloop
        refine .of_step ?_
        simp only [step, descend]
        cases hresolve : session.resolve callee arguments with
        | error fault => exact ends_error fault pending session
        | ok resolved =>
            obtain ⟨hget, hmem⟩ := Session.get?_of_resolve hresolve
            refine ends_call (hfunction hroom hget) (fun argument h => ?_) hroom hpending
            exact ih argument.2 (hmem argument h) (hloop argument.2 (hmem argument h))
      case labelledCall =>
        intro callee arguments ih hloop pending session hroom hpending
        rw [Expr.hasLoop, Expr.anyLabelledHasLoop_eq_false_iff] at hloop
        refine .of_step ?_
        simp only [step, descend]
        cases hresolve : session.resolveLabelled callee arguments with
        | error fault => exact ends_error fault pending session
        | ok resolved =>
            obtain ⟨hget, hmem⟩ := Session.get?_of_resolveLabelled hresolve
            refine ends_call (hfunction hroom hget) (fun argument h => ?_) hroom hpending
            exact ih argument (hmem argument h) (hloop argument (hmem argument h))
      case println =>
        intro argument ih hloop pending session hroom hpending
        refine .of_step (ih hloop hroom fun value after hafter => .of_step ?_)
        exact hpending value _ (hafter.print value)

end

end Machine

/-! ## Evaluations and runs -/

namespace Session

variable {α β : Type} {session mid after : Session}

/-- With fuel enough, this is what the computation comes to. -/
def Returns (run : (fuel : Nat) → Run α) (session : Session) (result : Except RunFault α)
    (after : Session) : Prop :=
  ∃ fuel, ∀ more, fuel ≤ more → run more session = some (result, after)

namespace Returns

theorem bind_error {run : (fuel : Nat) → Run α} {next : (fuel : Nat) → α → Run β}
    {fault : RunFault} (h : Returns run session (.error fault) after) :
    Returns (fun fuel => run fuel >>= next fuel) session (.error fault) after := by
  obtain ⟨fuel, hrun⟩ := h
  exact ⟨fuel, fun more hle => bind_eq_some_iff.mpr (.inl ⟨fault, hrun more hle, rfl⟩)⟩

theorem bind {run : (fuel : Nat) → Run α} {next : (fuel : Nat) → α → Run β} {value : α}
    {result : Except RunFault β} (hrun : Returns run session (.ok value) mid)
    (hnext : Returns (fun fuel => next fuel value) mid result after) :
    Returns (fun fuel => run fuel >>= next fuel) session result after := by
  obtain ⟨fuel, hrun⟩ := hrun
  obtain ⟨fuel', hnext⟩ := hnext
  refine ⟨max fuel fuel', fun more hle => bind_eq_some_iff.mpr (.inr ⟨value, mid, ?_, ?_⟩)⟩
  · exact hrun more (by omega)
  · exact hnext more (by omega)

end Returns

/-- An evaluation comes to a result, and changes nothing that the next one depends on. -/
theorem exists_returns_evaluate (hsession : session.LoopFree) {expr : Expr}
    (hexpr : expr.hasLoop = false) :
    ∃ result after, Returns (fun fuel => evaluate fuel expr) session result after ∧
      Restores session after := by
  have hroom : Machine.HasRoom session.callLimit session := ⟨hsession, Nat.le_add_left ..⟩
  obtain ⟨steps, result, after, hend⟩ := Machine.comesBack_of_hasLoop_eq_false session.callLimit
    expr hexpr hroom fun value after _ => Machine.ends_outcome (.ok value) after
  have hevaluate : evaluate (steps + 1) expr session = some (result, after) :=
    Machine.run_eq_some_iff.mpr ⟨steps, Nat.lt_succ_self steps, hend⟩
  have hkeeps := keeps_of_evaluate hsession.wellFormed hevaluate
  exact ⟨result, after, ⟨steps + 1, fun more hle => Machine.run_mono hle hevaluate⟩,
    hkeeps.nested, hkeeps.functions_eq, hkeeps.callLimit_eq⟩

theorem exists_returns_define (hsession : session.LoopFree) {definition : Definition}
    (hdefinition : definition.hasLoop = false) :
    ∃ result after, Returns (fun fuel => define fuel definition) session result after ∧
      after.LoopFree := by
  cases definition with
  | function f =>
      refine ⟨.ok (), session.defineFunction f, ⟨0, fun _ _ => rfl⟩, hsession.wellFormed, ?_⟩
      intro name function hget
      rw [defineFunction, Table.get?_insert] at hget
      split at hget
      next =>
        obtain rfl := Option.some.inj hget
        exact hdefinition
      next => exact hsession.hasLoop_eq_false name function hget
  | global name value =>
      obtain ⟨result, mid, hreturns, hrestores⟩ := exists_returns_evaluate hsession hdefinition
      cases result with
      | error fault => exact ⟨_, mid, hreturns.bind_error, hrestores.loopFree hsession⟩
      | ok number =>
          have hset : Restores session (mid.defineGlobal name number) :=
            hrestores.setAt 0 name number
          exact ⟨_, _, hreturns.bind ⟨0, fun _ _ => rfl⟩, hset.loopFree hsession⟩

theorem exists_returns_register {program : Program} (hsession : session.LoopFree)
    (hprogram : ∀ definition ∈ program, definition.hasLoop = false) :
    ∃ result after, Returns (fun fuel => register fuel program) session result after ∧
      after.LoopFree := by
  induction program generalizing session with
  | nil => exact ⟨.ok (), session, ⟨0, fun _ _ => rfl⟩, hsession⟩
  | cons definition rest ih =>
      rw [List.forall_mem_cons] at hprogram
      obtain ⟨result, mid, hreturns, hmid⟩ := exists_returns_define hsession hprogram.1
      cases result with
      | error fault => exact ⟨_, mid, hreturns.bind_error, hmid⟩
      | ok =>
          obtain ⟨result, after, hreturns', hafter⟩ := ih hmid hprogram.2
          exact ⟨result, after, hreturns.bind hreturns', hafter⟩

theorem hasLoop_eq_false_of_entryPoint (hsession : session.LoopFree) {main : Function}
    (h : entryPoint session = .ok main) : main.body.hasLoop = false := by
  unfold entryPoint at h
  split at h
  next function hget =>
    split at h
    next =>
      obtain rfl := Except.ok.inj h
      exact hsession.hasLoop_eq_false "main" function hget
    next => cases h
  next => cases h

theorem exists_returns_runProgram {program : Program} (hsession : session.LoopFree)
    (hprogram : ∀ definition ∈ program, definition.hasLoop = false) :
    ∃ result after, Returns (fun fuel => runProgram fuel program) session result after := by
  obtain ⟨result, mid, hregister, hmid⟩ := exists_returns_register hsession hprogram
  cases result with
  | error fault => exact ⟨_, mid, hregister.bind_error⟩
  | ok =>
      cases hentry : entryPoint mid with
      | error fault =>
          refine ⟨.error fault, mid, hregister.bind ⟨0, fun more _ => ?_⟩⟩
          show (liftM (entryPoint mid) >>= _ : Run Int64) mid = _
          rw [hentry]
          rfl
      | ok main =>
          obtain ⟨result, after, ⟨fuel, hreturns⟩, -⟩ :=
            exists_returns_evaluate hmid (hasLoop_eq_false_of_entryPoint hmid hentry)
          refine ⟨result, after, hregister.bind ⟨fuel, fun more hle => ?_⟩⟩
          show (liftM (entryPoint mid) >>= _ : Run Int64) mid = _
          rw [hentry]
          exact hreturns more hle

end Session

/-- In a session in which no search goes astray and no function has a loop, every expression without
a loop is evaluated to a value or to a fault, and every program without a loop is run to one. -/
theorem evaluation_ends_without_loops (session : Session)
    (hwell : session.environment.WellFormed)
    (hfunctions : ∀ name function, session.functions.get? name = some function →
      function.body.hasLoop = false) :
    (∀ expr : Expr, expr.hasLoop = false →
      ∃ fuel result after, Session.evaluate fuel expr session = some (result, after)) ∧
    (∀ program : Program, (∀ definition ∈ program, definition.hasLoop = false) →
      ∃ fuel result after, Session.runProgram fuel program session = some (result, after)) := by
  have hsession : session.LoopFree := ⟨hwell, hfunctions⟩
  constructor
  · intro expr hexpr
    obtain ⟨result, after, ⟨fuel, hreturns⟩, -⟩ := Session.exists_returns_evaluate hsession hexpr
    exact ⟨fuel, result, after, hreturns fuel (Nat.le_refl fuel)⟩
  · intro program hprogram
    obtain ⟨result, after, fuel, hreturns⟩ :=
      Session.exists_returns_runProgram hsession hprogram
    exact ⟨fuel, result, after, hreturns fuel (Nat.le_refl fuel)⟩

/-- Two functions that call each other without end, run under a limit of three calls. -/
theorem evaluation_ends_without_loops_mutual_recursion : ∃ program : Program,
    program = [
      .function ⟨"main", [], .block [.call "even" [.number 0]]⟩,
      .function ⟨"even", ["n"], .block [.println (.symbol "n"), .call "odd" [.symbol "n"]]⟩,
      .function ⟨"odd", ["n"],
        .block [.call "even" [.binary .add (.symbol "n") (.number 1)]]⟩] ∧
    (Session.initial 3 (.buffer "")).environment.WellFormed ∧
    (∀ definition ∈ program, definition.hasLoop = false) ∧
    ∃ fuel result after,
      Session.runProgram fuel program (Session.initial 3 (.buffer "")) = some (result, after) := by
  refine ⟨_, rfl, Environment.initial_wellFormed, by decide, ?_⟩
  exact (evaluation_ends_without_loops (Session.initial 3 (.buffer ""))
    Environment.initial_wellFormed nofun).2 _ (by decide)

end IntScript
