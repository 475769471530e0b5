import IntScript.Program
import IntScript.Text.Decimal

/-!
# Source text of expressions and programs

Writes an expression as the language spells it.  Standing alone, an expression is a line and a plain
one ends in a semicolon; as an operand it gets parentheses exactly when it binds looser than its
place demands.  Inside a block each line is indented by two spaces more than the block itself.
-/

namespace IntScript

open Text

/-- The place that an expression is written into. -/
inductive Slot where
  /-- A line of its own, inside so many blocks. -/
  | line (depth : Nat)
  /-- Part of an expression, where only operators of this layer and tighter ones may stand bare. -/
  | operand (least : Precedence)
  deriving DecidableEq, Repr

namespace Slot

/-- The number of blocks around the slot that count for indentation. -/
def depth : Slot → Nat
  | line depth => depth
  | operand _ => 0

/-- The loosest layer that stands bare in the slot. -/
def least : Slot → Precedence
  | line _ => .lowest
  | operand least => least

/-- What ends a plain expression in the slot. -/
def ending : Slot → String
  | line _ => ";"
  | operand _ => ""

end Slot

/-- The indentation of a line inside so many blocks. -/
def indentation (depth : Nat) : String :=
  "".pushn ' ' (2 * depth)

@[simp] theorem toList_indentation (depth : Nat) :
    (indentation depth).toList = List.replicate (2 * depth) ' ' := by
  suffices ∀ n, ("".pushn ' ' n).toList = List.replicate n ' ' from this _
  intro n
  induction n with
  | zero => rfl
  | succ n ih =>
    rw [List.replicate_succ', ← ih]
    exact String.toList_push ' '

namespace Expr

mutual

/-- The pieces of the text of an expression in a slot, before the pieces in `rest`. -/
def layout (slot : Slot) (expr : Expr) (rest : List String) : List String :=
  match expr with
  | number value => decimal value :: slot.ending :: rest
  | symbol name => name :: slot.ending :: rest
  | binary op left right =>
    let operands (rest : List String) : List String :=
      left.layout (.operand op.precedence)
        (" " :: op.symbol :: " " :: right.layout (.operand op.precedence.next) rest)
    if op.precedence.rank < slot.least.rank then "(" :: operands (")" :: slot.ending :: rest)
    else operands (slot.ending :: rest)
  | call callee arguments =>
    callee :: "(" :: layoutArguments arguments (")" :: slot.ending :: rest)
  | labelledCall callee arguments =>
    callee :: "[" :: layoutLabelled arguments ("]" :: slot.ending :: rest)
  | assign name value => name :: " = " :: value.layout (.operand .lowest) (";" :: rest)
  | println argument => "println(" :: argument.layout (.operand .lowest) (");" :: rest)
  | loop condition body =>
    "while(" :: condition.layout (.operand .lowest) (") " :: body.layout (.line slot.depth) rest)
  | ifThen condition thenBody =>
    "if(" :: condition.layout (.operand .lowest)
      (") " :: thenBody.layout (.line slot.depth) rest)
  | ifElse condition thenBody elseBody =>
    "if(" :: condition.layout (.operand .lowest)
      (") " :: thenBody.layout (.line slot.depth)
        (" else " :: elseBody.layout (.line slot.depth) rest))
  | block [] => "\x7b\x7d" :: rest
  | block (first :: others) =>
    "\x7b\n" :: layoutLines (slot.depth + 1) (first :: others)
      (indentation slot.depth :: "\x7d" :: rest)

/-- The pieces of arguments, separated by commas. -/
def layoutArguments (arguments : List Expr) (rest : List String) : List String :=
  match arguments with
  | [] => rest
  | [argument] => argument.layout (.operand .lowest) rest
  | argument :: next :: others =>
    argument.layout (.operand .lowest) (", " :: layoutArguments (next :: others) rest)

/-- The pieces of labelled arguments, separated by commas. -/
def layoutLabelled (arguments : List (String × Expr)) (rest : List String) : List String :=
  match arguments with
  | [] => rest
  | [(label, argument)] => label :: " = " :: argument.layout (.operand .lowest) rest
  | (label, argument) :: next :: others =>
    label :: " = " :: argument.layout (.operand .lowest)
      (", " :: layoutLabelled (next :: others) rest)

/-- The pieces of the lines inside a block, each indented and ended. -/
def layoutLines (depth : Nat) (lines : List Expr) (rest : List String) : List String :=
  match lines with
  | [] => rest
  | line :: others =>
    indentation depth :: line.layout (.line depth) ("\n" :: layoutLines depth others rest)

end

/-- The text of an expression as a line of its own. -/
def toSource (expr : Expr) : String :=
  String.join (expr.layout (.line 0) [])

end Expr

namespace Definition

/-- The pieces of the text of a definition, before the pieces in `rest`. -/
def layout (definition : Definition) (rest : List String) : List String :=
  match definition with
  | global name value =>
    "global " :: name :: " = " :: value.layout (.operand .lowest) (";" :: rest)
  | function f =>
    "define " :: f.name :: "(" :: String.intercalate ", " f.parameters :: ") " ::
      f.body.layout (.line 0) rest

/-- The text of a definition. -/
def toSource (definition : Definition) : String :=
  String.join (definition.layout [])

end Definition

namespace Program

/-- The pieces of the text of a program: its definitions, each ended, with an empty line between any
two. -/
def layout : Program → List String
  | [] => []
  | [definition] => definition.layout ["\n"]
  | definition :: next :: others => definition.layout ("\n\n" :: layout (next :: others))

/-- The text of a program. -/
def toSource (program : Program) : String :=
  String.join program.layout

end Program

end IntScript
