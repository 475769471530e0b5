import IntScript.Grammar.Line
import IntScript.Program

/-!
# Reading definitions

    definition := "global" NAME "=" expression ";"
                | "define" NAME "(" (NAME ("," NAME)*)? ")" "{" line* "}"
-/

namespace IntScript.Reader

open TokenKind

/-- A `global` definition. -/
def globalDefinition (fuel : Nat) : Reader Definition := do
  let _ ← advance
  let name ← expectFor identifier "expected identifier after `global`"
  let _ ← expect assignment
  let value ← expression fuel
  let _ ← expect semicolon
  return .global name.text value

/-- A parameter. -/
def parameter : Reader String := do
  return (← expectFor identifier "expected parameter name").text

/-- A function definition. -/
def functionDefinition (vocabulary : Vocabulary) (fuel : Nat) : Reader Definition := do
  let _ ← advance
  let name ← expectFor identifier "expected function name after `define`"
  let _ ← expect openParen
  let parameters ← listUntil closeParen parameter fuel
  let _ ← expectFor closeParen "expected `,` or `)` in parameter list"
  if (← currentKind) = openCurly then
    let body ← blockLine (line vocabulary fuel) fuel
    return .function ⟨name.text, parameters, body⟩
  else failInstead "expected `\x7b` to start the function body"

/-- A definition. -/
def definition (vocabulary : Vocabulary) (fuel : Nat) : Reader Definition := do
  let token ← current
  match vocabulary.definitionForm? token.kind with
  | some .global => globalDefinition fuel
  | some .function => functionDefinition vocabulary fuel
  | none => failAt token (.trailing token.text)

end IntScript.Reader
