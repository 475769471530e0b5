import IntScript.Grammar.Expression

/-!
# Reading lines

    line := "println" "(" expression ")" ";"
          | "while" "(" expression ")" line
          | "if" "(" expression ")" line ("else" line)?
          | "for" "(" NAME "in" expression "to" expression ")" line
          | "{" line* "}"
          | NAME "=" expression ";"
          | expression ";"

An `else` belongs to the nearest `if` before it.  The forms that a reserved word or a brace
introduces consume that token without a look at it, because it is what selected them.
-/

namespace IntScript.Reader

open TokenKind

/-- The forms of a line that their first token gives away. -/
inductive LineForm where
  | println
  | loop
  | conditional
  | block
  | counted
  deriving DecidableEq, Repr

/-- The form that a token introduces. -/
def LineForm.ofKind? : TokenKind → Option LineForm
  | keyword .println => some println
  | keyword .«while» => some loop
  | keyword .«if» => some conditional
  | keyword .«for» => some counted
  | openCurly => some block
  | _ => none

/-- The forms of a definition. -/
inductive DefinitionForm where
  | global
  | function
  deriving DecidableEq, Repr

/-- The form that a token introduces. -/
def DefinitionForm.ofKind? : TokenKind → Option DefinitionForm
  | keyword .global => some global
  | keyword .define => some function
  | _ => none

/-- How much of the language a reader knows. -/
inductive Vocabulary where
  /-- Only assignments and expressions, and no definition at all. -/
  | bare
  /-- The whole language. -/
  | full
  deriving DecidableEq, Repr

namespace Vocabulary

/-- The form of line that a token introduces. -/
def lineForm? : Vocabulary → TokenKind → Option LineForm
  | bare, _ => none
  | full, kind => LineForm.ofKind? kind

/-- The form of definition that a token introduces. -/
def definitionForm? : Vocabulary → TokenKind → Option DefinitionForm
  | bare, _ => none
  | full, kind => DefinitionForm.ofKind? kind

end Vocabulary

/-- Whether a name and an assignment sign come next. -/
def startsAssignment : Reader Bool :=
  lookahead do
    if (← advance).kind = identifier then
      return (← advance).kind = TokenKind.assignment
    else return false

/-- The condition of a loop or a conditional, or what is printed. -/
@[inline] def condition (expression : Reader Expr) : Reader Expr := do
  let _ ← expect openParen
  let inner ← expression
  let _ ← expect closeParen
  return inner

/-- A `println` line. -/
@[inline] def printlnLine (expression : Reader Expr) : Reader Expr := do
  let _ ← advance
  let argument ← condition expression
  let _ ← expect semicolon
  return .println argument

/-- A `while` line. -/
@[inline] def loopLine (expression line : Reader Expr) : Reader Expr := do
  let _ ← advance
  let test ← condition expression
  let body ← line
  return .loop test body

/-- An `if` line, with the `else` that follows if there is one. -/
@[inline] def conditionalLine (expression line : Reader Expr) : Reader Expr := do
  let _ ← advance
  let test ← condition expression
  let thenBody ← line
  if (← currentKind) = keyword .«else» then
    let _ ← advance
    let elseBody ← line
    return .ifElse test thenBody elseBody
  else return .ifThen test thenBody

/-- The lines of a block up to its closing brace. -/
@[specialize] def blockLines (line : Reader Expr) : (fuel : Nat) → Reader (List Expr)
  | 0 => outOfFuel
  | fuel + 1 => do
    match ← currentKind with
    | closeCurly => return []
    | eof => failInstead "unterminated block, expected `\x7d`"
    | _ =>
      let first ← line
      let others ← blockLines line fuel
      return first :: others

/-- A block. -/
@[inline] def blockLine (line : Reader Expr) (fuel : Nat) : Reader Expr := do
  let _ ← expect openCurly
  let body ← blockLines line fuel
  let _ ← expect closeCurly
  return .block body

/-- A `for` line. -/
@[inline] def countedLine (expression line : Reader Expr) : Reader Expr := do
  let _ ← advance
  let _ ← expect openParen
  let name ← expectFor identifier "expected loop variable after `for(`"
  let _ ← expect (keyword .«in»)
  let start ← expression
  let _ ← expect (keyword .«to»)
  let stop ← expression
  let _ ← expect closeParen
  let body ← line
  return .forIn name.text start stop body

/-- An assignment. -/
@[inline] def assignmentLine (expression : Reader Expr) : Reader Expr := do
  let name ← expect identifier
  let _ ← expect assignment
  let value ← expression
  let _ ← expect semicolon
  return .assign name.text value

/-- An expression as a line. -/
@[inline] def expressionLine (expression : Reader Expr) : Reader Expr := do
  let value ← expression
  let _ ← expect semicolon
  return value

/-- A line whose form is known. -/
@[inline] def lineOf (expression line : Reader Expr) (fuel : Nat) : LineForm → Reader Expr
  | .println => printlnLine expression
  | .loop => loopLine expression line
  | .conditional => conditionalLine expression line
  | .block => blockLine line fuel
  | .counted => countedLine expression line

/-- A line. -/
def line (vocabulary : Vocabulary) : (fuel : Nat) → Reader Expr
  | 0 => outOfFuel
  | fuel + 1 => do
    match vocabulary.lineForm? (← currentKind) with
    | some form => lineOf (expression fuel) (line vocabulary fuel) fuel form
    | none =>
      if ← startsAssignment then assignmentLine (expression fuel)
      else expressionLine (expression fuel)

end IntScript.Reader
