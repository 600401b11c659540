import StackLang.Fault

/-!
# Applying operators

An operator takes its left operand from below its right one. Arithmetic is done
on unbounded integers and the result is kept when a 64-bit integer has that
value; otherwise the application fails and the message shows both operands.
Division drops the fraction, so it rounds toward zero. Comparisons give a
boolean. Only `==` works on booleans too, and only when both operands are.

## Main definitions

* `Operator.exactly`: A 64-bit result with a given exact value, or an overflow.
* `Operator.apply`: The result of an operator on two values.
-/

namespace StackLang

namespace Operator

/-- The value of `op` on `lhs` and `rhs` when its exact result is `n`. -/
def exactly (op : Operator) (lhs rhs : Integer) (n : Int) : Except Fault Value :=
  match Integer.ofInt? n with
  | some w => .ok (.int w)
  | none => .error (.integerOverflow op lhs rhs)

/-- The result of an operator on its left and right operand. -/
def apply : Operator → Value → Value → Except Fault Value
  | .add, .int a, .int b => exactly .add a b (a.toInt + b.toInt)
  | .sub, .int a, .int b => exactly .sub a b (a.toInt - b.toInt)
  | .mul, .int a, .int b => exactly .mul a b (a.toInt * b.toInt)
  | .div, .int a, .int b =>
      -- The only quotient that does not fit is that of the least integer by -1.
      if b = 0 then .error .divisionByZero else exactly .div a b (a.toInt.tdiv b.toInt)
  | .eq, .int a, .int b => .ok (.bool (a = b))
  | .eq, .bool a, .bool b => .ok (.bool (a = b))
  | .gt, .int a, .int b => .ok (.bool (b.toInt < a.toInt))
  | .lt, .int a, .int b => .ok (.bool (a.toInt < b.toInt))
  | .ge, .int a, .int b => .ok (.bool (b.toInt ≤ a.toInt))
  | .le, .int a, .int b => .ok (.bool (a.toInt ≤ b.toInt))
  | op, lhs, rhs => .error (.typeMismatch op lhs.type rhs.type)

end Operator

end StackLang
