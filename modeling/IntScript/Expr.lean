import IntScript.Operator

/-!
# Expressions

Every construct of the language is an expression with one integer as its value; those that are
written as statements are not set apart.
-/

namespace IntScript

/-- An expression. -/
inductive Expr where
  | number (value : Int64)
  | symbol (name : String)
  /-- Binds or updates a variable. -/
  | assign (name : String) (value : Expr)
  | binary (op : Operator) (left right : Expr)
  /-- Expressions in sequence; the value is that of the last one. -/
  | block (body : List Expr)
  /-- A conditional without an alternative. -/
  | ifThen (condition thenBody : Expr)
  | ifElse (condition thenBody elseBody : Expr)
  /-- Repeats the body as long as the condition is not zero. -/
  | loop (condition body : Expr)
  /-- Calls a function with arguments in the order of its parameters. -/
  | call (callee : String) (arguments : List Expr)
  /-- Calls a function with arguments named after its parameters. -/
  | labelledCall (callee : String) (arguments : List (String × Expr))
  /-- Prints a value, which is also its own. -/
  | println (argument : Expr)
  deriving Repr

namespace Expr

/-- `for(name in start to stop) body`, as the loop it stands for. -/
def forIn (name : String) (start stop body : Expr) : Expr :=
  block [
    assign name start,
    loop (binary .less (symbol name) stop)
      (block [body, assign name (binary .add (symbol name) (number 1))])]

end Expr

end IntScript
