import IntScript.Expr.Equality

/-!
# Programs

A program is a list of definitions: global variables with the expression that gives their first
value, and functions.
-/

namespace IntScript

/-- A function: its name, its parameters and the expression it evaluates. -/
structure Function where
  name : String
  parameters : List String
  body : Expr
  deriving DecidableEq, Repr

namespace Function

/-- The number of parameters. -/
def arity (function : Function) : Nat :=
  function.parameters.length

end Function

/-- A definition. -/
inductive Definition where
  | global (name : String) (value : Expr)
  | function (function : Function)
  deriving DecidableEq, Repr

/-- A program: its definitions, in the order in which they take effect. -/
abbrev Program := List Definition

end IntScript
