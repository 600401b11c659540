/-!
# Operators

The nine binary operators: four of arithmetic and five comparisons. An operator
stands after its operands, so `10 3 -` leaves the difference of ten and three.
Its symbol is both its spelling in a program and its name in messages.

## Main definitions

* `Operator`: The operators.
* `Operator.symbol`: The spelling.
* `Operator.all`: Every operator once.

## Theorems

* `Operator.mem_all`: No operator is missing from the list.
-/

namespace StackLang

/-- The binary operators. -/
inductive Operator where
  | add
  | sub
  | mul
  | div
  | eq
  | gt
  | lt
  | ge
  | le
deriving DecidableEq, Repr

namespace Operator

/-- The spelling of an operator. -/
def symbol : Operator → String
  | .add => "+"
  | .sub => "-"
  | .mul => "*"
  | .div => "/"
  | .eq => "=="
  | .gt => ">"
  | .lt => "<"
  | .ge => ">="
  | .le => "<="

/-- Every operator once. -/
def all : List Operator :=
  [.add, .sub, .mul, .div, .eq, .gt, .lt, .ge, .le]

theorem mem_all (op : Operator) : op ∈ all := by
  cases op <;> decide

end Operator

end StackLang
