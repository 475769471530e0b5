import IntScript.Grammar

/-!
# What readers are made of

The readers of the grammar are put together from a few accesses to the tokens: they look at the
first token, consume it, ask whether there is one, or halt with a fault at a token that they have
seen.  What holds of these accesses, and of readers in sequence, holds of every reader.

* `Reader.Hereditary` : a property that readers inherit from the accesses they make.
* `Reader.Hereditary.program`, `Reader.Hereditary.statements` : it is had by the readers of whole
  sources.  The induction is on the fuel of each reader that repeats or nests.
-/

namespace IntScript

/-- The text of the token that a fault is about. -/
def ParseFault.token : ParseFault → String
  | .unrecognised token | .unexpected token | .unexpectedInstead token _ | .numeral token
  | .trailing token => token

namespace Reader

/-- Readers inherit the property from the accesses they make.  A token that they look at or consume
has been seen, and no fault is about any other token.  That a character starts no token is no fault
of theirs. -/
structure Hereditary (seen : Token → Prop) (P : (α : Type) → Reader α → Prop) : Prop where
  pure {α : Type} (value : α) : P α (Pure.pure value)
  bind {α β : Type} {reader : Reader α} {next : α → Reader β} (hreader : P α reader)
    (hnext : ∀ value, P β (next value)) : P β (reader >>= next)
  current_bind {α : Type} {next : Token → Reader α}
    (hnext : ∀ token, seen token → P α (next token)) : P α (current >>= next)
  advance_bind {α : Type} {next : Token → Reader α}
    (hnext : ∀ token, seen token → P α (next token)) : P α (advance >>= next)
  hasTokens : P Bool hasTokens
  outOfFuel {α : Type} : P α outOfFuel
  lookahead {α : Type} {reader : Reader α} (hreader : P α reader) : P α (lookahead reader)
  failAt {α : Type} {token : Token} {fault : ParseFault} (hseen : seen token)
    (htoken : fault.token = token.text) (hfault : ∀ text, fault ≠ .unrecognised text) :
    P α (failAt token fault)

namespace Hereditary

variable {seen : Token → Prop} {P : (α : Type) → Reader α → Prop} {α : Type} {item : Reader α}

theorem ite {p : Prop} [Decidable p] {second : Reader α} (hfirst : P α item)
    (hsecond : P α second) : P α (if p then item else second) := by
  split
  · exact hfirst
  · exact hsecond

variable (h : Hereditary seen P)

include h

/-! ## Single tokens -/

theorem currentKind : P TokenKind Reader.currentKind :=
  h.current_bind fun token _ => h.pure token.kind

theorem advance : P Token Reader.advance := by
  rw [← bind_pure Reader.advance]
  exact h.advance_bind fun token _ => h.pure token

theorem failInstead (expectation : String) : P α (Reader.failInstead expectation) :=
  h.current_bind fun _ hseen => h.failAt hseen rfl nofun

theorem expect (kind : TokenKind) : P Token (Reader.expect kind) :=
  h.current_bind fun _ hseen => ite h.advance (h.failAt hseen rfl nofun)

theorem expectFor (kind : TokenKind) (expectation : String) :
    P Token (Reader.expectFor kind expectation) :=
  h.current_bind fun _ hseen => ite h.advance (h.failAt hseen rfl nofun)

/-! ## Repetition -/

theorem commaSeparated (hitem : P α item) (fuel : Nat) :
    P (List α) (Reader.commaSeparated item fuel) := by
  induction fuel with
  | zero => exact h.outOfFuel
  | succ fuel ih =>
      refine h.bind hitem fun first => h.bind h.currentKind fun kind => ite ?_ (h.pure _)
      exact h.bind h.advance fun _ => h.bind ih fun others => h.pure _

theorem listUntil (close : TokenKind) (hitem : P α item) (fuel : Nat) :
    P (List α) (Reader.listUntil close item fuel) :=
  h.bind h.currentKind fun _ => ite (h.pure []) (h.commaSeparated hitem fuel)

theorem untilEnd (hitem : P α item) (fuel : Nat) : P (List α) (Reader.untilEnd item fuel) := by
  induction fuel with
  | zero => exact h.outOfFuel
  | succ fuel ih =>
      refine h.bind h.hasTokens fun some => ite ?_ (h.pure _)
      exact h.bind hitem fun first => h.bind ih fun others => h.pure _

/-! ## Expressions -/

theorem operators (layer : Precedence) {operand : Reader Expr} (hoperand : P Expr operand)
    (fuel : Nat) (left : Expr) : P Expr (Reader.operators layer operand fuel left) := by
  induction fuel generalizing left with
  | zero => exact h.outOfFuel
  | succ fuel ih =>
      refine h.bind h.currentKind fun kind => ?_
      cases kind with
      | operator op =>
          refine ite ?_ (h.pure left)
          exact h.bind h.advance fun _ => h.bind hoperand fun right => ih _
      | _ => exact h.pure left

theorem numeral : P Expr Reader.numeral := by
  refine h.advance_bind fun token hseen => ?_
  cases Text.numeral? token.text with
  | some value => exact h.pure _
  | none => exact h.failAt hseen rfl nofun

section

variable {expression : Reader Expr} (hexpression : P Expr expression)

include hexpression

theorem grouping : P Expr (Reader.grouping expression) :=
  h.bind h.advance fun _ => h.bind hexpression fun inner =>
    h.bind (h.expect _) fun _ => h.pure inner

theorem callOf (callee : String) (fuel : Nat) : P Expr (Reader.callOf callee expression fuel) :=
  h.bind (h.expect _) fun _ => h.bind (h.listUntil _ hexpression fuel) fun _ =>
    h.bind (h.expectFor _ _) fun _ => h.pure _

theorem labelled : P (String × Expr) (Reader.labelled expression) :=
  h.bind (h.expectFor _ _) fun _ => h.bind (h.expect _) fun _ => h.bind hexpression fun _ =>
    h.pure _

theorem labelledCallOf (callee : String) (fuel : Nat) :
    P Expr (Reader.labelledCallOf callee expression fuel) :=
  h.bind (h.expect _) fun _ => h.bind (h.listUntil _ (h.labelled hexpression) fuel) fun _ =>
    h.bind (h.expectFor _ _) fun _ => h.pure _

theorem named (fuel : Nat) : P Expr (Reader.named expression fuel) := by
  refine h.bind (h.expect _) fun name => h.bind h.currentKind fun kind => ?_
  cases kind with
  | openParen => exact h.callOf hexpression name.text fuel
  | openBracket => exact h.labelledCallOf hexpression name.text fuel
  | _ => exact h.pure _

theorem primary (fuel : Nat) : P Expr (Reader.primary expression fuel) := by
  refine h.bind h.currentKind fun kind => ?_
  cases kind with
  | openParen => exact h.grouping hexpression
  | number => exact h.numeral
  | identifier => exact h.named hexpression fuel
  | _ => exact h.current_bind fun _ hseen => h.failAt hseen rfl nofun

end

theorem expressionOf (layer : Precedence) (fuel : Nat) :
    P Expr (Reader.expressionOf layer fuel) := by
  induction fuel generalizing layer with
  | zero => exact h.outOfFuel
  | succ fuel ih =>
      unfold Reader.expressionOf
      cases layer with
      | primary => exact h.primary (ih .relational) fuel
      | _ => exact h.bind (ih _) fun left => h.operators _ (ih _) fuel left

/-! ## Lines -/

theorem startsAssignment : P Bool Reader.startsAssignment := by
  refine h.lookahead (h.bind h.advance fun token => ite ?_ (h.pure false))
  exact h.bind h.advance fun second => h.pure _

section

variable {line : Reader Expr} (hline : P Expr line)

include hline

theorem blockLines (fuel : Nat) : P (List Expr) (Reader.blockLines line fuel) := by
  induction fuel with
  | zero => exact h.outOfFuel
  | succ fuel ih =>
      refine h.bind h.currentKind fun kind => ?_
      cases kind with
      | closeCurly => exact h.pure []
      | eof => exact h.failInstead _
      | _ => exact h.bind hline fun first => h.bind ih fun others => h.pure _

theorem blockLine (fuel : Nat) : P Expr (Reader.blockLine line fuel) :=
  h.bind (h.expect _) fun _ => h.bind (h.blockLines hline fuel) fun _ =>
    h.bind (h.expect _) fun _ => h.pure _

end

section

variable {expression line : Reader Expr} (hexpression : P Expr expression)

include hexpression

theorem condition : P Expr (Reader.condition expression) :=
  h.bind (h.expect _) fun _ => h.bind hexpression fun inner =>
    h.bind (h.expect _) fun _ => h.pure inner

theorem printlnLine : P Expr (Reader.printlnLine expression) :=
  h.bind h.advance fun _ => h.bind (h.condition hexpression) fun _ =>
    h.bind (h.expect _) fun _ => h.pure _

theorem assignmentLine : P Expr (Reader.assignmentLine expression) :=
  h.bind (h.expect _) fun _ => h.bind (h.expect _) fun _ => h.bind hexpression fun _ =>
    h.bind (h.expect _) fun _ => h.pure _

theorem expressionLine : P Expr (Reader.expressionLine expression) :=
  h.bind hexpression fun value => h.bind (h.expect _) fun _ => h.pure value

variable (hline : P Expr line)

include hline

theorem loopLine : P Expr (Reader.loopLine expression line) :=
  h.bind h.advance fun _ => h.bind (h.condition hexpression) fun _ => h.bind hline fun _ =>
    h.pure _

theorem conditionalLine : P Expr (Reader.conditionalLine expression line) := by
  refine h.bind h.advance fun _ => h.bind (h.condition hexpression) fun test => ?_
  refine h.bind hline fun thenBody => h.bind h.currentKind fun kind => ite ?_ (h.pure _)
  exact h.bind h.advance fun _ => h.bind hline fun elseBody => h.pure _

theorem countedLine : P Expr (Reader.countedLine expression line) := by
  refine h.bind h.advance fun _ => h.bind (h.expect _) fun _ => ?_
  refine h.bind (h.expectFor _ _) fun name => h.bind (h.expect _) fun _ => ?_
  refine h.bind hexpression fun start => h.bind (h.expect _) fun _ => ?_
  refine h.bind hexpression fun stop => h.bind (h.expect _) fun _ => ?_
  exact h.bind hline fun body => h.pure _

theorem lineOf (fuel : Nat) (form : LineForm) :
    P Expr (Reader.lineOf expression line fuel form) := by
  cases form with
  | println => exact h.printlnLine hexpression
  | loop => exact h.loopLine hexpression hline
  | conditional => exact h.conditionalLine hexpression hline
  | block => exact h.blockLine hline fuel
  | counted => exact h.countedLine hexpression hline

end

variable (vocabulary : Vocabulary) (fuel : Nat)

theorem line : P Expr (Reader.line vocabulary fuel) := by
  induction fuel with
  | zero => exact h.outOfFuel
  | succ fuel ih =>
      have hexpression := h.expressionOf .relational fuel
      refine h.bind h.currentKind fun kind => ?_
      cases vocabulary.lineForm? kind with
      | some form => exact h.lineOf hexpression ih fuel form
      | none =>
          exact h.bind h.startsAssignment fun starts =>
            ite (h.assignmentLine hexpression) (h.expressionLine hexpression)

/-! ## Definitions -/

theorem globalDefinition : P Definition (Reader.globalDefinition fuel) := by
  refine h.bind h.advance fun _ => h.bind (h.expectFor _ _) fun name => ?_
  refine h.bind (h.expect _) fun _ => h.bind (h.expressionOf _ fuel) fun value => ?_
  exact h.bind (h.expect _) fun _ => h.pure _

theorem parameter : P String Reader.parameter :=
  h.bind (h.expectFor _ _) fun token => h.pure token.text

theorem functionDefinition : P Definition (Reader.functionDefinition vocabulary fuel) := by
  refine h.bind h.advance fun _ => h.bind (h.expectFor _ _) fun name => ?_
  refine h.bind (h.expect _) fun _ => h.bind (h.listUntil _ h.parameter fuel) fun parameters => ?_
  refine h.bind (h.expectFor _ _) fun _ => ?_
  refine h.bind h.currentKind fun kind => ite ?_ (h.failInstead _)
  exact h.bind (h.blockLine (h.line vocabulary fuel) fuel) fun body => h.pure _

theorem definition : P Definition (Reader.definition vocabulary fuel) := by
  refine h.current_bind fun token hseen => ?_
  cases vocabulary.definitionForm? token.kind with
  | none => exact h.failAt hseen rfl nofun
  | some form =>
      cases form with
      | global => exact h.globalDefinition fuel
      | function => exact h.functionDefinition vocabulary fuel

theorem program : P Program (Reader.program vocabulary fuel) :=
  h.untilEnd (h.definition vocabulary fuel) fuel

theorem statements : P (List Expr) (Reader.statements vocabulary fuel) :=
  h.untilEnd (h.line vocabulary fuel) fuel

end Hereditary

end Reader

end IntScript
