import IntScript.Expr
import IntScript.Grammar.Reader

/-!
# Reading expressions

    expression      := relational
    relational      := additive (("<" | "<=" | ">" | ">=" | "==" | "!=") additive)*
    additive        := multiplicative (("+" | "-") multiplicative)*
    multiplicative  := primary (("*" | "/") primary)*
    primary         := "(" expression ")" | NUMBER | NAME
                     | NAME "(" (expression ("," expression)*)? ")"
                     | NAME "[" (NAME "=" expression ("," NAME "=" expression)*)? "]"

Operators of one layer associate to the left.  Each reader that nests takes the reader of the nested
expressions as an argument; `Reader.expression` ties the knot.
-/

namespace IntScript.Reader

open TokenKind

/-- Operators of one layer with their right operands, applied to `left` from left to right. -/
@[specialize] def operators (layer : Precedence) (operand : Reader Expr) :
    (fuel : Nat) → (left : Expr) → Reader Expr
  | 0, _ => outOfFuel
  | fuel + 1, left => do
    match ← currentKind with
    | operator op =>
      if op.precedence = layer then
        let _ ← advance
        let right ← operand
        operators layer operand fuel (.binary op left right)
      else return left
    | _ => return left

/-- An expression in parentheses, of which the first is taken as read whatever token it is. -/
@[inline] def grouping (expression : Reader Expr) : Reader Expr := do
  let _ ← advance
  let inner ← expression
  let _ ← expect closeParen
  return inner

/-- A numeral.  The token is judged by its text alone. -/
def numeral : Reader Expr := do
  let token ← advance
  match Text.numeral? token.text with
  | some value => return .number value
  | none => failAt token (.numeral token.text)

/-- The arguments of a positional call. -/
def callOf (callee : String) (expression : Reader Expr) (fuel : Nat) : Reader Expr := do
  let _ ← expect openParen
  let arguments ← listUntil closeParen expression fuel
  let _ ← expectFor closeParen "expected `,` or `)` in argument list"
  return .call callee arguments

/-- A labelled argument. -/
@[inline] def labelled (expression : Reader Expr) : Reader (String × Expr) := do
  let label ← expectFor identifier "expected parameter label"
  let _ ← expect assignment
  let argument ← expression
  return (label.text, argument)

/-- The arguments of a labelled call. -/
def labelledCallOf (callee : String) (expression : Reader Expr) (fuel : Nat) : Reader Expr := do
  let _ ← expect openBracket
  let arguments ← listUntil closeBracket (labelled expression) fuel
  let _ ← expectFor closeBracket "expected `,` or `]` in labelled argument list"
  return .labelledCall callee arguments

/-- A name: a call if an opening bracket follows, a variable otherwise. -/
@[inline] def named (expression : Reader Expr) (fuel : Nat) : Reader Expr := do
  let name ← expect identifier
  match ← currentKind with
  | openParen => callOf name.text expression fuel
  | openBracket => labelledCallOf name.text expression fuel
  | _ => return .symbol name.text

/-- The tightest expressions. -/
@[inline] def primary (expression : Reader Expr) (fuel : Nat) : Reader Expr := do
  match ← currentKind with
  | openParen => grouping expression
  | number => numeral
  | identifier => named expression fuel
  | _ =>
    let token ← current
    failAt token (.unexpected token.text)

/-- An expression made of operators of the given layer and tighter ones. -/
def expressionOf (layer : Precedence) : (fuel : Nat) → Reader Expr
  | 0 => outOfFuel
  | fuel + 1 =>
    match layer with
    | .primary => primary (expressionOf .relational fuel) fuel
    | layer => do
      let left ← expressionOf layer.next fuel
      operators layer (expressionOf layer.next fuel) fuel left

/-- An expression. -/
abbrev expression (fuel : Nat) : Reader Expr :=
  expressionOf .relational fuel

end IntScript.Reader
