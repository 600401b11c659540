import StackLang.Integer

/-!
# Values

Everything on a stack is an integer or a boolean, and carries which of the two
it is. Nothing is coerced: an operator or a branch that meets the wrong type
fails, and its message names the type.

## Main definitions

* `Value`: An integer or a boolean.
* `ValueType`: The two types.
* `Value.text`: The printed form, which is also the literal's spelling.
* `Value.describe`: Type and printed form together, for messages.
-/

namespace StackLang

/-- The types of values. -/
inductive ValueType where
  | integer
  | boolean
deriving DecidableEq, Repr

/-- The name of a type in messages. -/
def ValueType.name : ValueType → String
  | .integer => "integer"
  | .boolean => "boolean"

/-- What a stack cell or a variable holds. -/
inductive Value where
  | int (n : Integer)
  | bool (b : Bool)
deriving DecidableEq, Repr

namespace Value

/-- What a variable holds before anything is stored in it. -/
def zero : Value := .int 0

instance : Inhabited Value := ⟨zero⟩

/-- The type of a value. -/
def type : Value → ValueType
  | .int _ => .integer
  | .bool _ => .boolean

/-- The truth value of a boolean; an integer has none. -/
def asBool? : Value → Option Bool
  | .int _ => none
  | .bool b => some b

/-- The printed form: decimal for integers, the literal's spelling for
    booleans. -/
def text : Value → String
  | .int n => n.text
  | .bool true => "True"
  | .bool false => "False"

/-- A value as messages show it, its type first. -/
def describe (v : Value) : String :=
  v.type.name ++ " " ++ v.text

end Value

end StackLang
