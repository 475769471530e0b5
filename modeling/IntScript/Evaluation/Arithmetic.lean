import IntScript.Fault
import IntScript.Operator

/-!
# Arithmetic

Values are 64-bit integers in two's complement.  Sums, differences, products and quotients wrap
around; a quotient is rounded toward zero; a comparison has the value one or zero.
-/

namespace IntScript.Operator

/-- The value of a truth value. -/
def truth (holds : Bool) : Int64 :=
  if holds then 1 else 0

/-- The value of an operator at two operands. -/
def apply (op : Operator) (left right : Int64) : Except RunFault Int64 :=
  match op with
  | add => .ok (left + right)
  | subtract => .ok (left - right)
  | multiply => .ok (left * right)
  | divide => if right = 0 then .error .divisionByZero else .ok (left / right)
  | less => .ok (truth (left < right))
  | lessEquals => .ok (truth (left ≤ right))
  | greater => .ok (truth (right < left))
  | greaterEquals => .ok (truth (right ≤ left))
  | equals => .ok (truth (left = right))
  | notEquals => .ok (truth (left ≠ right))

end IntScript.Operator
