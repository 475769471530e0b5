import IntScript.Proofs.Source.SurfaceForm

/-!
# Parts of expressions

An expression is a part of another if it is that expression or if it is anywhere in it.  What
matters here are the assignments: `Expr.Assigns` says that there is one to a name somewhere in the
expression.

Source text has assignments as lines, not as operands.  So there are none in the calls that are read
from a source, wherever the calls are (`Expr.Parsed.not_assigns`).
-/

namespace IntScript

namespace Expr

/-- The expressions that an expression is made of. -/
def children : Expr → List Expr
  | number _ | symbol _ => []
  | assign _ value => [value]
  | binary _ left right => [left, right]
  | block body => body
  | ifThen condition thenBody => [condition, thenBody]
  | ifElse condition thenBody elseBody => [condition, thenBody, elseBody]
  | loop condition body => [condition, body]
  | call _ arguments => arguments
  | labelledCall _ arguments => arguments.map Prod.snd
  | println argument => [argument]

/-- The expression is the whole, or is a part of something that the whole is made of. -/
inductive IsPartOf (part : Expr) : Expr → Prop where
  | refl : IsPartOf part part
  | child {whole child : Expr} (hchild : child ∈ whole.children) (hpart : IsPartOf part child) :
      IsPartOf part whole

/-- There is an assignment to the name somewhere in the expression. -/
def Assigns (expr : Expr) (name : String) : Prop :=
  ∃ value, (assign name value).IsPartOf expr

/-- All assignments in the expression are to names of some class. -/
def AssignsOnly (allowed : String → Prop) (expr : Expr) : Prop :=
  ∀ name, expr.Assigns name → allowed name

/-- The expression is a call. -/
def IsCall : Expr → Prop
  | call _ _ | labelledCall _ _ => True
  | _ => False

/-- An assignment is the expression itself or in something that it is made of. -/
theorem assigns_iff {expr : Expr} {name : String} : expr.Assigns name ↔
    (∃ value, expr = assign name value) ∨ ∃ child ∈ expr.children, child.Assigns name := by
  constructor
  · rintro ⟨value, hpart⟩
    generalize hassign : assign name value = part at hpart
    cases hpart with
    | refl => exact .inl ⟨value, hassign.symm⟩
    | child hchild hpart =>
        subst hassign
        exact .inr ⟨_, hchild, value, hpart⟩
  · rintro (⟨value, rfl⟩ | ⟨child, hchild, value, hpart⟩)
    · exact ⟨value, .refl⟩
    · exact ⟨value, .child hchild hpart⟩

/-- The body of a function is no part of a call to it. -/
theorem not_assigns_call_nil (callee name : String) : ¬ (call callee []).Assigns name := by
  rw [assigns_iff]
  simp [children]

namespace AssignsOnly

variable {allowed : String → Prop} {expr child : Expr}

theorem of_mem_children (h : expr.AssignsOnly allowed) (hchild : child ∈ expr.children) :
    child.AssignsOnly allowed := by
  intro name hname
  exact h name (assigns_iff.mpr (.inr ⟨child, hchild, hname⟩))

theorem allows {name : String} {value : Expr} (h : (assign name value).AssignsOnly allowed) :
    allowed name :=
  h name (assigns_iff.mpr (.inl ⟨value, rfl⟩))

end AssignsOnly

/-! ## Parts of what is read -/

theorem IsOperand.of_mem_children {expr child : Expr} (h : expr.IsOperand)
    (hchild : child ∈ expr.children) : child.IsOperand := by
  cases h with
  | number | symbol => exact absurd hchild List.not_mem_nil
  | binary hleft hright =>
      rcases List.mem_cons.mp hchild with rfl | hchild
      · exact hleft
      · rwa [List.mem_singleton.mp hchild]
  | call _ harguments => exact harguments child hchild
  | labelledCall _ _ harguments =>
      obtain ⟨argument, hargument, rfl⟩ := List.mem_map.mp hchild
      exact harguments argument hargument

theorem IsLine.of_mem_children {line child : Expr} (h : line.IsLine)
    (hchild : child ∈ line.children) : child.IsLine := by
  cases h with
  | expression hvalue => exact .expression (hvalue.of_mem_children hchild)
  | assign _ hvalue | println hvalue =>
      rw [List.mem_singleton.mp hchild]
      exact .expression hvalue
  | loop hcondition hbody | ifThen hcondition hbody =>
      rcases List.mem_cons.mp hchild with rfl | hchild
      · exact .expression hcondition
      · rwa [List.mem_singleton.mp hchild]
  | ifElse hcondition hthen helse =>
      rcases List.mem_cons.mp hchild with rfl | hchild
      · exact .expression hcondition
      rcases List.mem_cons.mp hchild with rfl | hchild
      · exact hthen
      · rwa [List.mem_singleton.mp hchild]
  | block hbody => exact hbody child hchild

/-- There are no assignments in operands. -/
theorem IsOperand.not_assigns {expr : Expr} (h : expr.IsOperand) (name : String) :
    ¬ expr.Assigns name := by
  rintro ⟨value, hpart⟩
  induction hpart with
  | refl => cases h
  | child hchild _ ih => exact ih (h.of_mem_children hchild)

theorem IsLine.of_isPartOf {line part : Expr} (h : line.IsLine) (hpart : part.IsPartOf line) :
    part.IsLine := by
  induction hpart with
  | refl => exact h
  | child hchild _ ih => exact ih (h.of_mem_children hchild)

/-- A call is a line by being an operand. -/
theorem IsLine.isOperand_of_isCall {line : Expr} (h : line.IsLine) (hcall : line.IsCall) :
    line.IsOperand := by
  cases h with
  | expression hvalue => exact hvalue
  | _ => exact hcall.elim

end Expr

/-- The expression that a definition evaluates: for a global variable at once, for a function in
every call of it. -/
def Definition.expr : Definition → Expr
  | global _ value => value
  | function f => f.body

theorem Definition.IsSurface.isLine {definition : Definition} (h : definition.IsSurface) :
    definition.expr.IsLine := by
  cases h with
  | global _ hvalue => exact .expression hvalue
  | function _ _ hbody => exact .block hbody

/-- The expression is a part of what is read from some source. -/
inductive Expr.Parsed (part : Expr) : Prop where
  | statements {source file : String} {lines : List Expr} {line : Expr}
      (hparse : parseStatements source file = .ok lines) (hline : line ∈ lines)
      (hpart : part.IsPartOf line) : Parsed part
  | program {source file : String} {program : Program} {definition : Definition}
      (hparse : parseProgram source file = .ok program) (hdefinition : definition ∈ program)
      (hpart : part.IsPartOf definition.expr) : Parsed part

theorem Expr.Parsed.isLine {part : Expr} (h : part.Parsed) : part.IsLine := by
  cases h with
  | statements hparse hline hpart =>
      exact (isLine_of_parseStatements hparse _ hline).of_isPartOf hpart
  | program hparse hdefinition hpart =>
      exact (isSurface_of_parseProgram hparse _ hdefinition).isLine.of_isPartOf hpart

/-- There are no assignments in the calls that are read from a source. -/
theorem Expr.Parsed.not_assigns {part : Expr} (h : part.Parsed) (hcall : part.IsCall)
    (name : String) : ¬ part.Assigns name :=
  (h.isLine.isOperand_of_isCall hcall).not_assigns name

end IntScript
