import IntScript.Proofs.Grammar.Locality

/-!
# More fuel makes no difference

A reader is given fuel only so that it ends.  Where the fuel is enough, more of it changes nothing:
neither the outcome nor the tokens that are left.  So a reader with enough fuel does what it would
do without a limit.

* `Reader.Approximates` : a reader does what another one does, up to the point where it runs out of
  fuel.  It is closed under the steps that readers are made of.
* `Reader.Approximates.expressionOf`, `Reader.Approximates.line`,
  `Reader.Approximates.definition` : readers with less fuel approximate those with more.  The
  induction is on the smaller fuel.
* `Reader.Approximates.eq_of_advances` : fuel that is enough for a reader to advance is enough.
-/

namespace IntScript.Reader

variable {α β : Type}

/-- The one reader does what the other one does, unless it runs out of fuel. -/
def Approximates (reader other : Reader α) : Prop :=
  ∀ tokens, other tokens = reader tokens ∨ ∃ left, reader tokens = .error .outOfFuel left

namespace Approximates

theorem eq_of_advances {reader other : Reader α} {least : Nat} {tokens : Tokens}
    (h : Approximates reader other) (hadvances : Advances least reader tokens) :
    other tokens = reader tokens := by
  rcases h tokens with heq | ⟨left, hout⟩
  · exact heq
  · rw [Advances, hout] at hadvances
    exact hadvances.elim

/-! ## Steps -/

theorem refl (reader : Reader α) : Approximates reader reader :=
  fun _ => .inl rfl

theorem outOfFuel (other : Reader α) : Approximates Reader.outOfFuel other :=
  fun tokens => .inr ⟨tokens, rfl⟩

theorem bind {reader other : Reader α} {next next' : α → Reader β} (h : Approximates reader other)
    (hnext : ∀ value, Approximates (next value) (next' value)) :
    Approximates (reader >>= next) (other >>= next') := by
  intro tokens
  rcases h tokens with heq | ⟨left, hout⟩
  · cases hread : reader tokens with
    | ok value left =>
        rw [Reads.eq_of_bind hread, Reads.eq_of_bind (heq.trans hread)]
        exact hnext value left
    | error halt left =>
        rw [Faults.eq_of_bind hread, Faults.eq_of_bind (heq.trans hread)]
        exact .inl rfl
  · exact .inr ⟨left, Faults.eq_of_bind hout⟩

/-- A step that takes no fuel comes first. -/
theorem andThen {reader : Reader α} {next next' : α → Reader β}
    (hnext : ∀ value, Approximates (next value) (next' value)) :
    Approximates (reader >>= next) (reader >>= next') :=
  (refl reader).bind hnext

theorem ite {p : Prop} [Decidable p] {first second first' second' : Reader α}
    (hfirst : Approximates first first') (hsecond : Approximates second second') :
    Approximates (if p then first else second) (if p then first' else second') := by
  split
  · exact hfirst
  · exact hsecond

/-! ## Repetition -/

section

variable {item item' : Reader α} {fuel more : Nat} (hitem : Approximates item item')
  (hle : fuel ≤ more)

include hitem hle

theorem commaSeparated :
    Approximates (Reader.commaSeparated item fuel) (Reader.commaSeparated item' more) := by
  induction fuel generalizing more with
  | zero => exact outOfFuel _
  | succ fuel ih =>
      obtain _ | more := more
      · omega
      · refine hitem.bind fun first => andThen fun kind => ite ?_ (refl _)
        exact andThen fun _ => (ih (by omega)).bind fun others => refl _

theorem listUntil (close : TokenKind) :
    Approximates (Reader.listUntil close item fuel) (Reader.listUntil close item' more) :=
  andThen fun _ => ite (refl _) (commaSeparated hitem hle)

theorem untilEnd : Approximates (Reader.untilEnd item fuel) (Reader.untilEnd item' more) := by
  induction fuel generalizing more with
  | zero => exact outOfFuel _
  | succ fuel ih =>
      obtain _ | more := more
      · omega
      · refine andThen fun some => ite ?_ (refl _)
        exact hitem.bind fun first => (ih (by omega)).bind fun others => refl _

end

section

variable {operand operand' : Reader Expr} {fuel more : Nat}
  (hoperand : Approximates operand operand') (hle : fuel ≤ more)

include hoperand hle

theorem operators (layer : Precedence) (left : Expr) :
    Approximates (Reader.operators layer operand fuel left)
      (Reader.operators layer operand' more left) := by
  induction fuel generalizing more left with
  | zero => exact outOfFuel _
  | succ fuel ih =>
      obtain _ | more := more
      · omega
      · refine andThen fun kind => ?_
        cases kind with
        | operator op =>
            refine ite ?_ (refl _)
            exact andThen fun _ => hoperand.bind fun right => ih (by omega) _
        | _ => exact refl _

theorem blockLines :
    Approximates (Reader.blockLines operand fuel) (Reader.blockLines operand' more) := by
  induction fuel generalizing more with
  | zero => exact outOfFuel _
  | succ fuel ih =>
      obtain _ | more := more
      · omega
      · refine andThen fun kind => ?_
        cases kind with
        | closeCurly | eof => exact refl _
        | _ => exact hoperand.bind fun first => (ih (by omega)).bind fun others => refl _

theorem blockLine : Approximates (Reader.blockLine operand fuel) (Reader.blockLine operand' more) :=
  andThen fun _ => (blockLines hoperand hle).bind fun _ => refl _

end

/-! ## Expressions -/

section

variable {expression expression' : Reader Expr} {fuel more : Nat}
  (hexpression : Approximates expression expression')

include hexpression

theorem grouping : Approximates (Reader.grouping expression) (Reader.grouping expression') :=
  andThen fun _ => hexpression.bind fun _ => refl _

theorem labelled : Approximates (Reader.labelled expression) (Reader.labelled expression') :=
  andThen fun _ => andThen fun _ => hexpression.bind fun _ => refl _

theorem callOf (callee : String) (hle : fuel ≤ more) :
    Approximates (Reader.callOf callee expression fuel) (Reader.callOf callee expression' more) :=
  andThen fun _ => (listUntil hexpression hle _).bind fun _ => refl _

theorem labelledCallOf (callee : String) (hle : fuel ≤ more) :
    Approximates (Reader.labelledCallOf callee expression fuel)
      (Reader.labelledCallOf callee expression' more) :=
  andThen fun _ => (listUntil (labelled hexpression) hle _).bind fun _ => refl _

theorem named (hle : fuel ≤ more) :
    Approximates (Reader.named expression fuel) (Reader.named expression' more) := by
  refine andThen fun name => andThen fun kind => ?_
  cases kind with
  | openParen => exact callOf hexpression name.text hle
  | openBracket => exact labelledCallOf hexpression name.text hle
  | _ => exact refl _

theorem primary (hle : fuel ≤ more) :
    Approximates (Reader.primary expression fuel) (Reader.primary expression' more) := by
  refine andThen fun kind => ?_
  cases kind with
  | openParen => exact grouping hexpression
  | identifier => exact named hexpression hle
  | _ => exact refl _

end

variable {fuel more : Nat}

theorem expressionOf (layer : Precedence) (hle : fuel ≤ more) :
    Approximates (Reader.expressionOf layer fuel) (Reader.expressionOf layer more) := by
  induction fuel generalizing layer more with
  | zero => exact outOfFuel _
  | succ fuel ih =>
      obtain _ | more := more
      · omega
      · have hle : fuel ≤ more := by omega
        unfold Reader.expressionOf
        cases layer with
        | primary => exact primary (ih .relational hle) hle
        | _ => exact (ih _ hle).bind fun left => operators (ih _ hle) hle _ left

/-! ## Lines -/

section

variable {expression expression' line line' : Reader Expr}
  (hexpression : Approximates expression expression')

include hexpression

theorem condition : Approximates (Reader.condition expression) (Reader.condition expression') :=
  andThen fun _ => hexpression.bind fun _ => refl _

theorem printlnLine :
    Approximates (Reader.printlnLine expression) (Reader.printlnLine expression') :=
  andThen fun _ => (condition hexpression).bind fun _ => refl _

theorem assignmentLine :
    Approximates (Reader.assignmentLine expression) (Reader.assignmentLine expression') :=
  andThen fun _ => andThen fun _ => hexpression.bind fun _ => refl _

theorem expressionLine :
    Approximates (Reader.expressionLine expression) (Reader.expressionLine expression') :=
  hexpression.bind fun _ => refl _

variable (hline : Approximates line line')

include hline

theorem loopLine :
    Approximates (Reader.loopLine expression line) (Reader.loopLine expression' line') :=
  andThen fun _ => (condition hexpression).bind fun _ => hline.bind fun _ => refl _

theorem conditionalLine : Approximates (Reader.conditionalLine expression line)
    (Reader.conditionalLine expression' line') := by
  refine andThen fun _ => (condition hexpression).bind fun test => hline.bind fun thenBody => ?_
  refine andThen fun kind => ite ?_ (refl _)
  exact andThen fun _ => hline.bind fun elseBody => refl _

theorem countedLine :
    Approximates (Reader.countedLine expression line) (Reader.countedLine expression' line') := by
  refine andThen fun _ => andThen fun _ => andThen fun name => andThen fun _ => ?_
  refine hexpression.bind fun start => andThen fun _ => hexpression.bind fun stop => ?_
  exact andThen fun _ => hline.bind fun body => refl _

theorem lineOf (hle : fuel ≤ more) (form : LineForm) :
    Approximates (Reader.lineOf expression line fuel form)
      (Reader.lineOf expression' line' more form) := by
  cases form with
  | println => exact printlnLine hexpression
  | loop => exact loopLine hexpression hline
  | conditional => exact conditionalLine hexpression hline
  | block => exact blockLine hline hle
  | counted => exact countedLine hexpression hline

end

theorem line (vocabulary : Vocabulary) (hle : fuel ≤ more) :
    Approximates (Reader.line vocabulary fuel) (Reader.line vocabulary more) := by
  induction fuel generalizing more with
  | zero => exact outOfFuel _
  | succ fuel ih =>
      obtain _ | more := more
      · omega
      · have hle : fuel ≤ more := by omega
        have hexpression := expressionOf .relational hle
        refine andThen fun kind => ?_
        cases vocabulary.lineForm? kind with
        | some form => exact lineOf hexpression (ih hle) hle form
        | none =>
            exact andThen fun starts =>
              ite (assignmentLine hexpression) (expressionLine hexpression)

/-! ## Definitions -/

theorem globalDefinition (hle : fuel ≤ more) :
    Approximates (Reader.globalDefinition fuel) (Reader.globalDefinition more) := by
  refine andThen fun _ => andThen fun name => andThen fun _ => ?_
  exact (expressionOf .relational hle).bind fun value => refl _

theorem functionDefinition (vocabulary : Vocabulary) (hle : fuel ≤ more) :
    Approximates (Reader.functionDefinition vocabulary fuel)
      (Reader.functionDefinition vocabulary more) := by
  refine andThen fun _ => andThen fun name => andThen fun _ => ?_
  refine (listUntil (refl _) hle _).bind fun parameters => andThen fun _ => ?_
  refine andThen fun kind => ite ?_ (refl _)
  exact (blockLine (line vocabulary hle) hle).bind fun body => refl _

theorem definition (vocabulary : Vocabulary) (hle : fuel ≤ more) :
    Approximates (Reader.definition vocabulary fuel) (Reader.definition vocabulary more) := by
  refine andThen fun token => ?_
  cases vocabulary.definitionForm? token.kind with
  | none => exact refl _
  | some form =>
      cases form with
      | global => exact globalDefinition hle
      | function => exact functionDefinition vocabulary hle

theorem program (vocabulary : Vocabulary) (hle : fuel ≤ more) :
    Approximates (Reader.program vocabulary fuel) (Reader.program vocabulary more) :=
  untilEnd (definition vocabulary hle) hle

theorem statements (vocabulary : Vocabulary) (hle : fuel ≤ more) :
    Approximates (Reader.statements vocabulary fuel) (Reader.statements vocabulary more) :=
  untilEnd (line vocabulary hle) hle

end Approximates

end IntScript.Reader
