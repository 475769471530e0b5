/-!
# Binary operators

The ten operators, their spelling and how tightly they bind.
-/

namespace IntScript

/-- The layers of precedence, the loosest first. -/
inductive Precedence where
  | lowest
  | relational
  | additive
  | multiplicative
  | primary
  deriving DecidableEq, Repr

namespace Precedence

/-- The place of a layer in the order, from zero for the loosest. -/
def rank : Precedence → Nat
  | lowest => 0
  | relational => 1
  | additive => 2
  | multiplicative => 3
  | primary => 4

/-- The next tighter layer; the tightest is its own successor. -/
def next : Precedence → Precedence
  | lowest => relational
  | relational => additive
  | additive => multiplicative
  | multiplicative => primary
  | primary => primary

end Precedence

/-- The binary operators. -/
inductive Operator where
  | add
  | subtract
  | multiply
  | divide
  | less
  | lessEquals
  | greater
  | greaterEquals
  | equals
  | notEquals
  deriving DecidableEq, Repr

namespace Operator

/-- The layer an operator belongs to. -/
def precedence : Operator → Precedence
  | add | subtract => .additive
  | multiply | divide => .multiplicative
  | less | lessEquals | greater | greaterEquals | equals | notEquals => .relational

/-- The spelling of an operator. -/
def symbol : Operator → String
  | add => "+"
  | subtract => "-"
  | multiply => "*"
  | divide => "/"
  | less => "<"
  | lessEquals => "<="
  | greater => ">"
  | greaterEquals => ">="
  | equals => "=="
  | notEquals => "!="

end Operator

end IntScript
