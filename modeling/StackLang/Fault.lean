import StackLang.Location
import StackLang.Operator
import StackLang.Value

/-!
# Faults

What can go wrong while a program runs. A `Fault` is the bare cause, with the
data that its message needs; a `RuntimeError` adds the location of the
statement that failed. The wording is in one place, `RuntimeError.message`.

## Main definitions

* `Fault`: The causes.
* `RuntimeError`: A cause and the location of the failing statement.
* `RuntimeError.message`: The wording.
-/

namespace StackLang

/-- The causes of a failed run. -/
inductive Fault where
  /-- A statement needs more values than the active stack holds. -/
  | stackUnderflow (needed available : Nat)
  | divisionByZero
  /-- The exact result is no 64-bit integer. -/
  | integerOverflow (op : Operator) (lhs rhs : Integer)
  /-- The operator does not work on operands of these types. -/
  | typeMismatch (op : Operator) (lhs rhs : ValueType)
  /-- A branch or a loop met a value that is no boolean. -/
  | invalidPredicate (found : Value)
  /-- A call was made while as many calls as allowed were active. -/
  | recursionLimit (function : String) (limit : Nat)
  | undefinedName (name : String)
  | duplicateName (name : String)
  /-- The sink refused a printed value. -/
  | outputFailed (reason : String)
deriving DecidableEq, Repr

/-- A fault and the location of the statement that met it. -/
structure RuntimeError where
  fault : Fault
  loc : Location
deriving DecidableEq, Repr

/-- The wording of a failed run. -/
def RuntimeError.message (e : RuntimeError) : String :=
  let place := e.loc.text
  match e.fault with
  | .stackUnderflow needed available =>
      s!"Stack underflow at {place}: needed {needed} value(s), found {available}"
  | .divisionByZero => s!"Division by zero at {place}"
  | .integerOverflow op lhs rhs =>
      s!"Integer overflow in {lhs.text} {op.symbol} {rhs.text} at {place}"
  | .typeMismatch op lhs rhs =>
      s!"Type mismatch at {place}: '{op.symbol}' cannot be applied to {lhs.name} and {rhs.name}"
  | .invalidPredicate found =>
      s!"Invalid predicate at {place}: expected a boolean, found {found.describe}"
  | .recursionLimit function limit =>
      s!"Recursion limit of {limit} exceeded calling '{function}' at {place}"
  | .undefinedName name => s!"Undefined name '{name}' at {place}"
  | .duplicateName name => s!"'{name}' is already declared at {place}"
  | .outputFailed reason => s!"Output failed at {place}: {reason}"

end StackLang
