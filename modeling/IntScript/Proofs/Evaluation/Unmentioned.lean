import Mathlib
import IntScript.Proofs.Evaluation.Names

/-!
# Names that are not mentioned

What an evaluation does not mention has no influence on it, and it has no influence on that.  Let
`V` and `F` be sets of names of variables and of functions such that neither the expression nor any
function outside of `F` mentions a variable of `V` or calls a function of `F`.  Two evaluations in
sessions that differ in these variables and functions only are alike, and what these variables are
bound to stays the same in both.  Under dynamic scoping this is not a matter of scopes: any function
that is called could reach any variable of any caller.

* `Environment.find_congr` : a search depends on the name that is searched for only.
* `Session.AgreesOutside` : what may differ between the two sessions.
* `Environment.Spares` : what an environment still has of another one that calls were made in.
* `Machine.Unaware.step` : the two evaluations in step.
* `unmentioned_names_do_not_matter` : the main result.
-/

namespace IntScript

variable {V F : Set String}

/-! ## What is mentioned -/

namespace Expr

/-- The name is that of a variable or of an assignment somewhere in the expression. -/
def Mentions (expr : Expr) (name : String) : Prop :=
  (symbol name).IsPartOf expr ∨ expr.Assigns name

/-- There is a call to the function somewhere in the expression. -/
def Calls (expr : Expr) (callee : String) : Prop :=
  (∃ arguments, (call callee arguments).IsPartOf expr) ∨
    ∃ arguments, (labelledCall callee arguments).IsPartOf expr

/-- The expression mentions none of the variables and calls none of the functions. -/
structure Avoids (V F : Set String) (expr : Expr) : Prop where
  not_mentions : ∀ name ∈ V, ¬ expr.Mentions name
  not_calls : ∀ callee ∈ F, ¬ expr.Calls callee

namespace Avoids

variable {expr child : Expr}

theorem of_mem_children (h : expr.Avoids V F) (hchild : child ∈ expr.children) :
    child.Avoids V F where
  not_mentions := by
    rintro name hname (hpart | ⟨value, hpart⟩)
    · exact h.not_mentions name hname (.inl (.child hchild hpart))
    · exact h.not_mentions name hname (.inr ⟨value, .child hchild hpart⟩)
  not_calls := by
    rintro callee hcallee (⟨arguments, hpart⟩ | ⟨arguments, hpart⟩)
    · exact h.not_calls callee hcallee (.inl ⟨arguments, .child hchild hpart⟩)
    · exact h.not_calls callee hcallee (.inr ⟨arguments, .child hchild hpart⟩)

theorem symbol_not_mem {name : String} (h : (symbol name).Avoids V F) :
    name ∉ V :=
  fun hname => h.not_mentions name hname (.inl .refl)

theorem assign_not_mem {name : String} {value : Expr}
    (h : (assign name value).Avoids V F) : name ∉ V :=
  fun hname => h.not_mentions name hname (.inr ⟨value, .refl⟩)

theorem call_not_mem {callee : String} {arguments : List Expr}
    (h : (call callee arguments).Avoids V F) : callee ∉ F :=
  fun hcallee => h.not_calls callee hcallee (.inl ⟨arguments, .refl⟩)

theorem labelledCall_not_mem {callee : String} {arguments : Arguments}
    (h : (labelledCall callee arguments).Avoids V F) : callee ∉ F :=
  fun hcallee => h.not_calls callee hcallee (.inr ⟨arguments, .refl⟩)

/-- What an expression mentions and calls it names itself, or one that it is made of does. -/
theorem of_children (hsymbol : ∀ name ∈ V, expr ≠ symbol name)
    (hassign : ∀ name ∈ V, ∀ value, expr ≠ assign name value)
    (hcall : ∀ callee ∈ F, ∀ arguments, expr ≠ call callee arguments)
    (hlabelled : ∀ callee ∈ F, ∀ arguments, expr ≠ labelledCall callee arguments)
    (hchildren : ∀ child ∈ expr.children, child.Avoids V F) : expr.Avoids V F where
  not_mentions := by
    rintro name hname (hpart | ⟨value, hpart⟩)
    · cases hpart with
      | refl => exact hsymbol name hname rfl
      | child hchild hpart => exact (hchildren _ hchild).not_mentions name hname (.inl hpart)
    · cases hpart with
      | refl => exact hassign name hname value rfl
      | child hchild hpart =>
          exact (hchildren _ hchild).not_mentions name hname (.inr ⟨value, hpart⟩)
  not_calls := by
    rintro callee hcallee (⟨arguments, hpart⟩ | ⟨arguments, hpart⟩)
    · cases hpart with
      | refl => exact hcall callee hcallee arguments rfl
      | child hchild hpart =>
          exact (hchildren _ hchild).not_calls callee hcallee (.inl ⟨arguments, hpart⟩)
    · cases hpart with
      | refl => exact hlabelled callee hcallee arguments rfl
      | child hchild hpart =>
          exact (hchildren _ hchild).not_calls callee hcallee (.inr ⟨arguments, hpart⟩)

end Avoids

end Expr

/-- Neither the parameters nor the body mention any of the variables, and the body calls none of the
functions. -/
structure Function.Avoids (V F : Set String) (function : Function) : Prop where
  parameters : ∀ parameter ∈ function.parameters, parameter ∉ V
  body : function.body.Avoids V F

/-! ## Environments -/

namespace Environment

variable {first second base environment : Environment} {index : Nat} {name : String}

theorem valueAt?_push (environment : Environment) (bindings : Table Int64) :
    (environment.push bindings).valueAt? index name =
      if index = environment.frames.size then bindings.get? name
      else environment.valueAt? index name := by
  rw [valueAt?, push, Array.getElem?_push]
  split <;> rfl

theorem valueAt?_pop (environment : Environment) (caller : Nat) :
    (environment.pop caller).valueAt? index name =
      if 1 < environment.frames.size ∧ index + 1 = environment.frames.size then none
      else environment.valueAt? index name := by
  rw [valueAt?, getElem?_pop]
  split <;> rfl

theorem valueAt?_eq_none (h : environment.frames.size ≤ index) :
    environment.valueAt? index name = none := by
  rw [valueAt?, Array.getElem?_eq_none h, Option.bind_none]

theorem SameShape.push (h : SameShape first second) (bindings : Table Int64) :
    SameShape (first.push bindings) (second.push bindings) where
  parents_eq := by
    simp only [Environment.push, Array.map_push, h.parents_eq, h.current_eq]
  current_eq := h.size_eq

/-- Searches for a name are alike where it is bound alike. -/
theorem find_congr (h : SameShape first second)
    (hname : ∀ index, first.valueAt? index name = second.valueAt? index name) :
    first.find name = second.find name := by
  rw [find, find, h.size_eq, h.current_eq]
  generalize second.frames.size = fuel, second.current = index
  induction fuel generalizing index with
  | zero => rfl
  | succ fuel ih =>
      have hparent := h.parent_eq index
      have hvalue := hname index
      rw [findFrom, findFrom]
      rw [valueAt?, valueAt?] at hvalue
      cases hfirst : first.frames[index]? with
      | none =>
          rw [hfirst, Option.map_none, eq_comm, Option.map_eq_none_iff] at hparent
          rw [hparent]
      | some frame =>
          rw [hfirst, Option.map_some, eq_comm, Option.map_eq_some_iff] at hparent
          obtain ⟨other, hsecond, hparent⟩ := hparent
          rw [hfirst, hsecond, Option.bind_some, Option.bind_some] at hvalue
          simp only [hsecond, Table.contains, hvalue, hparent, ih]

/-- Calls were made in the base, and some are in progress: the variables are bound as they were, and
there are frames enough to leave these calls. -/
structure Spares (V : Set String) (base : Environment) (calls : Nat)
    (environment : Environment) : Prop where
  size_le : base.frames.size + calls ≤ environment.frames.size
  valueAt?_eq : ∀ index, ∀ name ∈ V,
    environment.valueAt? index name = base.valueAt? index name

namespace Spares

variable {calls : Nat}

theorem refl (V : Set String) (environment : Environment) :
    Spares V environment 0 environment :=
  ⟨Nat.le_refl _, fun _ _ _ => rfl⟩

theorem setAt (h : Spares V base calls environment) (hname : name ∉ V)
    (index : Nat) (value : Int64) :
    Spares V base calls (environment.setAt index name value) where
  size_le := by
    rw [(setAt_sameShape environment index name value).size_eq]
    exact h.size_le
  valueAt?_eq other key hkey := by
    rw [valueAt?_setAt, if_neg]
    · exact h.valueAt?_eq other key hkey
    · rintro ⟨-, rfl, -⟩
      exact hname hkey

theorem push (h : Spares V base calls environment) {bindings : Table Int64}
    (hbindings : ∀ name ∈ V, bindings.get? name = none) :
    Spares V base (calls + 1) (environment.push bindings) where
  size_le := by
    rw [Environment.push, Array.size_push]
    exact Nat.succ_le_succ h.size_le
  valueAt?_eq index name hname := by
    have hsize := h.size_le
    rw [valueAt?_push]
    split
    next hindex => rw [hbindings name hname, valueAt?_eq_none (by omega)]
    next => exact h.valueAt?_eq index name hname

theorem pop (h : Spares V base (calls + 1) environment) (caller : Nat) :
    Spares V base calls (environment.pop caller) where
  size_le := by
    have hsize := h.size_le
    rw [Environment.pop]
    dsimp only
    split
    · rw [Array.size_pop]
      omega
    · omega
  valueAt?_eq index name hname := by
    have hsize := h.size_le
    rw [valueAt?_pop]
    split
    next hlast => rw [valueAt?_eq_none (by omega)]
    next => exact h.valueAt?_eq index name hname

end Spares

end Environment

/-! ## Sessions -/

namespace Session

/-- The sessions differ in what these variables are bound to, and in these functions, at most. -/
structure AgreesOutside (V F : Set String) (first second : Session) : Prop where
  sameShape : first.environment.SameShape second.environment
  valueAt?_eq : ∀ index, ∀ name ∉ V,
    first.environment.valueAt? index name = second.environment.valueAt? index name
  get?_eq : ∀ name ∉ F, first.functions.get? name = second.functions.get? name
  callLimit_eq : first.callLimit = second.callLimit
  output_eq : first.output = second.output

namespace AgreesOutside

variable {first second : Session} {name callee : String}

theorem find_eq (h : first.AgreesOutside V F second) (hname : name ∉ V) :
    first.environment.find name = second.environment.find name :=
  Environment.find_congr h.sameShape fun index => h.valueAt?_eq index name hname

theorem lookup_eq (h : first.AgreesOutside V F second) (hname : name ∉ V) :
    first.environment.lookup name = second.environment.lookup name := by
  simp only [Environment.lookup, h.find_eq hname, h.valueAt?_eq _ name hname]

theorem target?_eq (h : first.AgreesOutside V F second)
    (hname : name ∉ V) :
    first.environment.target? name = second.environment.target? name := by
  rw [Environment.target?, Environment.target?, h.find_eq hname, h.sameShape.current_eq]

theorem function_eq (h : first.AgreesOutside V F second)
    (hcallee : callee ∉ F) : first.function callee = second.function callee := by
  rw [Session.function, Session.function, h.get?_eq callee hcallee]

theorem resolve_eq (h : first.AgreesOutside V F second)
    (hcallee : callee ∉ F) (arguments : List Expr) :
    first.resolve callee arguments = second.resolve callee arguments := by
  rw [resolve, resolve, h.function_eq hcallee]

theorem resolveLabelled_eq (h : first.AgreesOutside V F second)
    (hcallee : callee ∉ F) (arguments : Arguments) :
    first.resolveLabelled callee arguments = second.resolveLabelled callee arguments := by
  rw [resolveLabelled, resolveLabelled, h.function_eq hcallee]

theorem isFull_eq (h : first.AgreesOutside V F second) :
    first.isFull = second.isFull := by
  rw [isFull, isFull, Environment.depth, Environment.depth, h.callLimit_eq, h.sameShape.size_eq]

theorem setAt (h : first.AgreesOutside V F second) (index : Nat) (name : String)
    (value : Int64) :
    (first.setAt index name value).AgreesOutside V F
      (second.setAt index name value) where
  sameShape := by
    have hfirst := Environment.setAt_sameShape first.environment index name value
    have hsecond := Environment.setAt_sameShape second.environment index name value
    exact (hfirst.trans h.sameShape).trans hsecond.symm
  valueAt?_eq other key hkey := by
    rw [Session.setAt, Session.setAt, Environment.valueAt?_setAt, Environment.valueAt?_setAt,
      h.sameShape.size_eq, h.valueAt?_eq other key hkey]
  get?_eq := h.get?_eq
  callLimit_eq := h.callLimit_eq
  output_eq := h.output_eq

theorem print (h : first.AgreesOutside V F second) (value : Int64) :
    (first.print value).AgreesOutside V F (second.print value) where
  sameShape := h.sameShape
  valueAt?_eq := h.valueAt?_eq
  get?_eq := h.get?_eq
  callLimit_eq := h.callLimit_eq
  output_eq := congrArg (Output.print value) h.output_eq

theorem enter (h : first.AgreesOutside V F second) (bindings : Table Int64) :
    (first.enter bindings).AgreesOutside V F (second.enter bindings) where
  sameShape := h.sameShape.push bindings
  valueAt?_eq index name hname := by
    rw [Session.enter, Session.enter, Environment.valueAt?_push, Environment.valueAt?_push,
      h.sameShape.size_eq, h.valueAt?_eq index name hname]
  get?_eq := h.get?_eq
  callLimit_eq := h.callLimit_eq
  output_eq := h.output_eq

theorem leave (h : first.AgreesOutside V F second) (caller : Nat) :
    (first.leave caller).AgreesOutside V F (second.leave caller) where
  sameShape := h.sameShape.pop caller
  valueAt?_eq index name hname := by
    rw [Session.leave, Session.leave, Environment.valueAt?_pop, Environment.valueAt?_pop,
      h.sameShape.size_eq, h.valueAt?_eq index name hname]
  get?_eq := h.get?_eq
  callLimit_eq := h.callLimit_eq
  output_eq := h.output_eq

end AgreesOutside

end Session

namespace Session

/-- The sessions have come about from two that agree, by calls of which some are in progress. -/
structure Sheltered (V F : Set String) (base base' : Environment) (calls : Nat)
    (first second : Session) : Prop where
  agree : first.AgreesOutside V F second
  avoids : ∀ name ∉ F, ∀ function, first.functions.get? name = some function → function.Avoids V F
  spares : base.Spares V calls first.environment
  spares' : base'.Spares V calls second.environment

namespace Sheltered

variable {base base' : Environment} {calls : Nat} {first second : Session}

theorem setAt {name : String} (h : Sheltered V F base base' calls first second) (hname : name ∉ V)
    (index : Nat) (value : Int64) :
    Sheltered V F base base' calls (first.setAt index name value)
      (second.setAt index name value) :=
  ⟨h.agree.setAt index name value, h.avoids, h.spares.setAt hname index value,
    h.spares'.setAt hname index value⟩

theorem print (h : Sheltered V F base base' calls first second) (value : Int64) :
    Sheltered V F base base' calls (first.print value) (second.print value) :=
  ⟨h.agree.print value, h.avoids, h.spares, h.spares'⟩

theorem enter {bindings : Table Int64} (h : Sheltered V F base base' calls first second)
    (hbindings : ∀ name ∈ V, bindings.get? name = none) :
    Sheltered V F base base' (calls + 1) (first.enter bindings) (second.enter bindings) :=
  ⟨h.agree.enter bindings, h.avoids, h.spares.push hbindings, h.spares'.push hbindings⟩

theorem leave (h : Sheltered V F base base' (calls + 1) first second) (caller : Nat) :
    Sheltered V F base base' calls (first.leave caller) (second.leave caller) :=
  ⟨h.agree.leave caller, h.avoids, h.spares.pop caller, h.spares'.pop caller⟩

end Sheltered

end Session

/-! ## Two evaluations in step -/

/-- The parameters and the expressions for them mention no variable of `V` and call no function of
`F`. -/
def Arguments.Avoid (V F : Set String) (arguments : Arguments) : Prop :=
  ∀ argument ∈ arguments, argument.1 ∉ V ∧ argument.2.Avoids V F

/-- What the task has yet to do mentions no variable of `V` and calls no function of `F`. -/
def Pending.Avoids (V F : Set String) : Pending → Prop
  | assign name => name ∉ V
  | rightOperand _ right => right.Avoids V F
  | sequence rest => ∀ expr ∈ rest, expr.Avoids V F
  | branch thenBody elseBody => thenBody.Avoids V F ∧ ∀ expr ∈ elseBody, expr.Avoids V F
  | test condition body | again condition body => condition.Avoids V F ∧ body.Avoids V F
  | argument function bound parameter rest =>
    function.Avoids V F ∧ (∀ name ∈ V, bound.get? name = none) ∧ parameter ∉ V ∧
      Arguments.Avoid V F rest
  | apply _ _ | leave _ | print => True

/-- What is about to be done mentions no variable of `V` and calls no function of `F`. -/
def Focus.Avoids (V F : Set String) : Focus → Prop
  | evaluate expr => expr.Avoids V F
  | outcome _ | stuck => True

namespace Machine

/-- The number of calls that are pending. -/
def calls : List Pending → Nat
  | [] => 0
  | .leave _ :: pending => calls pending + 1
  | _ :: pending => calls pending

/-- The machines do the same, and neither mentions a variable of `V` nor calls a function of `F`. -/
inductive Unaware (V F : Set String) (base base' : Environment) : Machine → Machine → Prop where
  | mk {focus : Focus} {pending : List Pending} {first second : Session}
      (hfocus : focus.Avoids V F) (hpending : ∀ task ∈ pending, task.Avoids V F)
      (hsessions : Session.Sheltered V F base base' (calls pending) first second) :
      Unaware V F base base' ⟨focus, pending, first⟩ ⟨focus, pending, second⟩

namespace Unaware

variable {base base' : Environment} {task : Pending} {pending : List Pending}
  {first second : Session}

section

variable (hpending : ∀ task ∈ pending, task.Avoids V F)
  (hsessions : Session.Sheltered V F base base' (calls pending) first second)

include hpending hsessions

theorem outcome (result : Except RunFault Int64) :
    Unaware V F base base' ⟨.outcome result, pending, first⟩ ⟨.outcome result, pending, second⟩ :=
  .mk trivial hpending hsessions

theorem evaluate {expr : Expr} (hexpr : expr.Avoids V F) :
    Unaware V F base base' ⟨.evaluate expr, pending, first⟩ ⟨.evaluate expr, pending, second⟩ :=
  .mk hexpr hpending hsessions

/-- The machines go on with a part of what they were doing, and the rest is pending. -/
theorem push {expr : Expr} (htask : ∀ caller, task ≠ .leave caller) (hexpr : expr.Avoids V F)
    (hrest : task.Avoids V F) :
    Unaware V F base base' ⟨.evaluate expr, task :: pending, first⟩
      ⟨.evaluate expr, task :: pending, second⟩ := by
  have hcalls : calls (task :: pending) = calls pending := by
    cases task with
    | leave caller => exact absurd rfl (htask caller)
    | _ => rfl
  refine .mk hexpr (List.forall_mem_cons.mpr ⟨hrest, hpending⟩) ?_
  rwa [hcalls]

theorem call {function : Function} {bound : Table Int64} {arguments : Arguments}
    (hfunction : function.Avoids V F) (hbound : ∀ name ∈ V, bound.get? name = none)
    (harguments : arguments.Avoid V F) :
    Unaware V F base base' (Machine.call function bound arguments pending first)
      (Machine.call function bound arguments pending second) := by
  cases arguments with
  | cons argument rest =>
      obtain ⟨⟨hparameter, hargument⟩, hrest⟩ := List.forall_mem_cons.mp harguments
      exact push hpending hsessions (by simp) hargument ⟨hfunction, hbound, hparameter, hrest⟩
  | nil =>
      have hagree := hsessions.agree
      rw [Machine.call, Machine.call, hagree.isFull_eq, hagree.callLimit_eq,
        hagree.sameShape.current_eq]
      split
      · exact outcome hpending hsessions _
      · have hentered : Session.Sheltered V F base base'
            (calls (.leave second.environment.current :: pending)) (first.enter bound)
            (second.enter bound) :=
          hsessions.enter hbound
        exact .mk hfunction.body (List.forall_mem_cons.mpr ⟨trivial, hpending⟩) hentered

/-- A function that the sessions have in common is called with arguments for its parameters. -/
theorem call_resolved {callee : String} (hcallee : callee ∉ F) {function : Function}
    {arguments : Arguments} (hget : first.functions.get? callee = some function)
    (hparameters : arguments.map Prod.fst = function.parameters)
    (harguments : ∀ argument ∈ arguments, argument.2.Avoids V F) :
    Unaware V F base base' (Machine.call function .empty arguments pending first)
      (Machine.call function .empty arguments pending second) := by
  have hfunction := hsessions.avoids callee hcallee function hget
  refine call hpending hsessions hfunction (fun _ _ => rfl) fun argument hmem => ⟨?_, ?_⟩
  · apply hfunction.parameters
    rw [← hparameters]
    exact List.mem_map_of_mem hmem
  · exact harguments argument hmem

theorem descend {expr : Expr} (hexpr : expr.Avoids V F) :
    Unaware V F base base' (Machine.descend expr pending first)
      (Machine.descend expr pending second) := by
  have hchild : ∀ child ∈ expr.children, child.Avoids V F := fun _ => hexpr.of_mem_children
  cases expr with
  | number value => exact outcome hpending hsessions _
  | symbol name =>
      rw [Machine.descend, Machine.descend, hsessions.agree.lookup_eq hexpr.symbol_not_mem]
      cases second.environment.lookup name <;> exact .mk trivial hpending hsessions
  | assign name value =>
      exact push hpending hsessions (by simp) (hchild value (by simp [Expr.children]))
        hexpr.assign_not_mem
  | binary op left right =>
      exact push hpending hsessions (by simp) (hchild left (by simp [Expr.children]))
        (hchild right (by simp [Expr.children]))
  | block body =>
      cases body with
      | nil => exact outcome hpending hsessions _
      | cons first rest =>
          exact push hpending hsessions (by simp) (hchild first List.mem_cons_self)
            fun expr hmem => hchild expr (List.mem_cons_of_mem _ hmem)
  | ifThen condition thenBody =>
      exact push hpending hsessions (by simp) (hchild condition (by simp [Expr.children]))
        ⟨hchild thenBody (by simp [Expr.children]), by simp⟩
  | ifElse condition thenBody elseBody =>
      refine push hpending hsessions (by simp) (hchild condition (by simp [Expr.children]))
        ⟨hchild thenBody (by simp [Expr.children]), ?_⟩
      rintro _ ⟨⟩
      exact hchild elseBody (by simp [Expr.children])
  | loop condition body =>
      have hcondition := hchild condition (by simp [Expr.children])
      exact push hpending hsessions (by simp) hcondition
        ⟨hcondition, hchild body (by simp [Expr.children])⟩
  | call callee arguments =>
      rw [Machine.descend, Machine.descend, ← hsessions.agree.resolve_eq hexpr.call_not_mem]
      cases hresolve : first.resolve callee arguments with
      | error fault => exact outcome hpending hsessions _
      | ok resolved =>
          obtain ⟨hget, hmem⟩ := Session.get?_of_resolve hresolve
          exact call_resolved hpending hsessions hexpr.call_not_mem hget
            (Session.map_fst_of_resolve hresolve)
            fun argument hargument => hchild argument.2 (hmem argument hargument)
  | labelledCall callee arguments =>
      rw [Machine.descend, Machine.descend,
        ← hsessions.agree.resolveLabelled_eq hexpr.labelledCall_not_mem]
      cases hresolve : first.resolveLabelled callee arguments with
      | error fault => exact outcome hpending hsessions _
      | ok resolved =>
          obtain ⟨hget, hmem⟩ := Session.get?_of_resolveLabelled hresolve
          exact call_resolved hpending hsessions hexpr.labelledCall_not_mem hget
            (Session.map_fst_of_resolveLabelled hresolve)
            fun argument hargument => hchild _ (List.mem_map_of_mem (hmem argument hargument))
  | println argument =>
      exact push hpending hsessions (by simp) (hchild argument (by simp [Expr.children])) trivial

end

theorem resume (htask : task.Avoids V F) (hpending : ∀ task ∈ pending, task.Avoids V F)
    (hsessions : Session.Sheltered V F base base' (calls (task :: pending)) first second)
    (value : Int64) :
    Unaware V F base base' (Machine.resume value task pending first)
      (Machine.resume value task pending second) := by
  cases task with
  | assign name =>
      have hbelow : Session.Sheltered V F base base' (calls pending) first second := hsessions
      rw [Machine.resume, Machine.resume, hbelow.agree.target?_eq htask]
      cases second.environment.target? name with
      | none => exact .mk trivial hpending hbelow
      | some index => exact outcome hpending (hbelow.setAt htask index value) _
  | rightOperand op right => exact push hpending hsessions (by simp) htask trivial
  | apply => exact outcome hpending hsessions _
  | sequence rest =>
      cases rest with
      | nil => exact outcome hpending hsessions _
      | cons next rest =>
          obtain ⟨hnext, hrest⟩ := List.forall_mem_cons.mp htask
          exact push hpending hsessions (by simp) hnext hrest
  | branch thenBody elseBody =>
      simp only [Machine.resume]
      split
      · exact evaluate hpending hsessions htask.1
      · cases elseBody with
        | none => exact outcome hpending hsessions _
        | some elseBody => exact evaluate hpending hsessions (htask.2 elseBody rfl)
  | test condition body =>
      rw [Machine.resume, Machine.resume]
      split
      · exact push hpending hsessions (by simp) htask.2 htask
      · exact outcome hpending hsessions _
  | again condition body => exact push hpending hsessions (by simp) htask.1 htask
  | argument function bound parameter rest =>
      obtain ⟨hfunction, hbound, hparameter, hrest⟩ := htask
      refine call hpending hsessions hfunction (fun name hname => ?_) hrest
      rw [Table.get?_insert, if_neg, hbound name hname]
      rintro rfl
      exact hparameter hname
  | leave caller => exact outcome hpending (hsessions.leave caller) _
  | print => exact outcome hpending (Session.Sheltered.print hsessions value) _

variable {machine machine' : Machine}

/-- One step. -/
theorem step (h : Unaware V F base base' machine machine') :
    Unaware V F base base' machine.step machine'.step := by
  obtain ⟨hfocus, hpending, hsessions⟩ := h
  rename_i focus pending first second
  cases focus with
  | evaluate expr => exact descend hpending hsessions hfocus
  | stuck => exact .mk trivial hpending hsessions
  | outcome result =>
      cases pending with
      | nil => cases result <;> exact outcome hpending hsessions _
      | cons task pending =>
          obtain ⟨htask, hbelow⟩ := List.forall_mem_cons.mp hpending
          cases result with
          | ok value => exact resume htask hbelow hsessions value
          | error fault =>
              cases task with
              | leave caller => exact outcome hbelow (hsessions.leave caller) _
              | _ => exact outcome hbelow hsessions _

/-- A whole run: both come to their end, or neither does. -/
theorem run (h : Unaware V F base base' machine machine') (fuel : Nat) :
    (machine.run fuel = none ∧ machine'.run fuel = none) ∨
      ∃ result after after', machine.run fuel = some (result, after) ∧
        machine'.run fuel = some (result, after') ∧
        Session.Sheltered V F base base' 0 after after' := by
  induction fuel generalizing machine machine' with
  | zero => exact .inl ⟨rfl, rfl⟩
  | succ fuel ih =>
      have hstep := ih h.step
      obtain ⟨hfocus, hpending, hsessions⟩ := h
      rename_i focus pending first second
      cases focus with
      | evaluate expr => exact hstep
      | stuck => exact .inl ⟨rfl, rfl⟩
      | outcome result =>
          cases pending with
          | nil => exact .inr ⟨result, first, second, rfl, rfl, hsessions⟩
          | cons task pending => exact hstep

end Unaware

end Machine

/-- Let neither the expression nor any function outside of `F` mention a variable of `V` or call a
function of `F`.  In two sessions that agree but for these variables and functions the expression
has the same value or the same fault, or the evaluation does not end in either; what is printed is
the same, the sessions agree as before, and the variables of `V` are bound in each of them to what
they were bound to. -/
theorem unmentioned_names_do_not_matter (V F : Set String) (expr : Expr) (first second : Session)
    (hexpr : expr.Avoids V F)
    (hfunctions : ∀ name ∉ F, ∀ function, first.functions.get? name = some function →
      function.Avoids V F)
    (hagree : first.AgreesOutside V F second) (fuel : Nat) :
    (Session.evaluate fuel expr first = none ↔ Session.evaluate fuel expr second = none) ∧
    ∀ result result' after after', Session.evaluate fuel expr first = some (result, after) →
      Session.evaluate fuel expr second = some (result', after') →
      result = result' ∧ after.AgreesOutside V F after' ∧
      ∀ index, ∀ name ∈ V,
        after.environment.valueAt? index name = first.environment.valueAt? index name ∧
        after'.environment.valueAt? index name = second.environment.valueAt? index name := by
  have hstart : Machine.Unaware V F first.environment second.environment
      ⟨.evaluate expr, [], first⟩ ⟨.evaluate expr, [], second⟩ :=
    .mk hexpr (by simp) ⟨hagree, hfunctions, .refl V _, .refl V _⟩
  have hrun := hstart.run fuel
  rw [Session.evaluate, Session.evaluate]
  rcases hrun with ⟨hnone, hnone'⟩ | ⟨result, after, after', hsome, hsome', hsheltered⟩
  · rw [hnone, hnone']
    exact ⟨Iff.rfl, by simp⟩
  · rw [hsome, hsome']
    refine ⟨by simp, ?_⟩
    rintro _ _ _ _ ⟨⟩ ⟨⟩
    exact ⟨rfl, hsheltered.agree, fun index name hname =>
      ⟨hsheltered.spares.valueAt?_eq index name hname,
        hsheltered.spares'.valueAt?_eq index name hname⟩⟩

/-- A call that sets a variable, in a session where there is another variable and a function that
would print it, and in one without them. -/
theorem unmentioned_names_do_not_matter_to_assigning_call : ∃ (V F : Set String)
      (expr : Expr) (first second after after' : Session), expr.Avoids V F ∧
    (∀ name ∉ F, ∀ function, first.functions.get? name = some function → function.Avoids V F) ∧
    first.AgreesOutside V F second ∧
    first.environment.valueAt? 0 "y" = some 5 ∧ second.environment.valueAt? 0 "y" = none ∧
    Session.evaluate 30 expr first = some (.ok 3, after) ∧
    Session.evaluate 30 expr second = some (.ok 3, after') ∧
    after.AgreesOutside V F after' ∧ after.environment.valueAt? 0 "x" = some 3 ∧
    after.environment.valueAt? 0 "y" = some 5 ∧ after'.environment.valueAt? 0 "y" = none := by
  obtain ⟨f, hf⟩ : ∃ f : Function, f = ⟨"f", ["n"], .assign "x"
    (.binary .add (.symbol "x") (.symbol "n"))⟩ := ⟨_, rfl⟩
  obtain ⟨second, hsecond⟩ : ∃ second : Session,
    second = ((Session.initial 2 .silent).defineGlobal "x" 1).defineFunction f := ⟨_, rfl⟩
  obtain ⟨first, hfirst⟩ : ∃ first : Session,
    first = (second.defineGlobal "y" 5).defineFunction ⟨"g", [], .println (.symbol "y")⟩ :=
    ⟨_, rfl⟩
  have hexpr : (Expr.call "f" [.number 2]).Avoids {"y"} {"g"} := by
    refine .of_children (by simp) (by simp) (by simp) (by simp) ?_
    simp only [Expr.children, List.mem_singleton, forall_eq]
    exact .of_children (by simp) (by simp) (by simp) (by simp) (by simp [Expr.children])
  have hbody : f.Avoids {"y"} {"g"} := by
    have hsymbol : ∀ name ∈ ["x", "n"], (Expr.symbol name).Avoids {"y"} {"g"} := by
      intro name hname
      refine .of_children ?_ (by simp) (by simp) (by simp) (by simp [Expr.children])
      rintro _ rfl heq
      obtain rfl := Expr.symbol.inj heq
      exact absurd hname (by decide)
    have hsum : (Expr.binary .add (.symbol "x") (.symbol "n")).Avoids {"y"} {"g"} := by
      refine .of_children (by simp) (by simp) (by simp) (by simp) ?_
      simp only [Expr.children, List.forall_mem_cons]
      exact ⟨hsymbol "x" (by decide), hsymbol "n" (by decide), by simp⟩
    rw [hf]
    refine ⟨by simp, .of_children (by simp) (by simp) (by simp) (by simp) ?_⟩
    simp only [Expr.children, List.forall_mem_cons]
    exact ⟨hsum, by simp⟩
  have hfunctions : ∀ name ∉ ({"g"} : Set String), ∀ function,
      first.functions.get? name = some function → function.Avoids {"y"} {"g"} := by
    intro name hname function hget
    rw [hfirst, hsecond] at hget
    simp only [Session.defineFunction, Table.get?_insert, Session.defineGlobal] at hget
    rw [if_neg (by simpa using hname)] at hget
    split at hget
    · cases hget
      exact hbody
    · cases hget
  have hagree : first.AgreesOutside {"y"} {"g"} second := by
    rw [hfirst]
    refine ⟨Environment.setAt_sameShape second.environment 0 "y" 5, fun index name hname => ?_,
      fun name hname => ?_, rfl, rfl⟩
    · have hne : name ≠ "y" := by simpa using hname
      show (second.environment.setAt 0 "y" 5).valueAt? index name = _
      rw [Environment.valueAt?_setAt, if_neg (by simp [hne])]
    · have hne : name ≠ "g" := by simpa using hname
      show (second.functions.insert "g" _).get? name = _
      rw [Table.get?_insert, if_neg hne]
  obtain ⟨after, after', hrun, hrun', hx, hy, hy'⟩ : ∃ after after',
      Session.evaluate 30 (.call "f" [.number 2]) first = some (.ok 3, after) ∧
      Session.evaluate 30 (.call "f" [.number 2]) second = some (.ok 3, after') ∧
      after.environment.valueAt? 0 "x" = some 3 ∧ first.environment.valueAt? 0 "y" = some 5 ∧
      second.environment.valueAt? 0 "y" = none := by
    rw [hfirst, hsecond, hf]
    exact ⟨_, _, rfl, rfl, rfl, rfl, rfl⟩
  obtain ⟨-, hagrees, hspared⟩ := (unmentioned_names_do_not_matter {"y"} {"g"} _ first second hexpr
    hfunctions hagree 30).2 _ _ after after' hrun hrun'
  obtain ⟨hkept, hkept'⟩ := hspared 0 "y" rfl
  exact ⟨{"y"}, {"g"}, _, first, second, after, after', hexpr, hfunctions, hagree, hy, hy', hrun,
    hrun', hagrees, hx, hkept.trans hy, hkept'.trans hy'⟩

end IntScript
