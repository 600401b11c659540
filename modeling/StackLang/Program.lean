import StackLang.Location
import StackLang.Operator
import StackLang.Value

/-!
# Programs

A program is a list of statements. A statement that encloses others, a branch, a
loop or a function, owns them directly, so the tree has no labels and no
forward references; a call names its function, and the name is looked up when
the call is made.

The two forms of a branch are two constructors. A branch without an `ELSE` part
and one whose `ELSE` part is empty do the same, but they are different
programs.

What a function promises its callers, its `Signature`, is kept apart from its
body, so the statement that declares a function nests only through the body.

## Main definitions

* `Arity`: How many values a function hands back.
* `Signature`: A function without its body.
* `Stmt`: A statement.
* `Function`: A function.
* `Program`: Statements, and the variables they declare outside functions.
* `Program.functions`: The functions declared directly at the top level.
-/

namespace StackLang

/-- How many values a function hands back. -/
inductive Arity where
  | one
  | two
  | three
deriving DecidableEq, Repr

namespace Arity

/-- The arity as a number. -/
def count : Arity → Nat
  | .one => 1
  | .two => 2
  | .three => 3

/-- The arity with a given count; only one, two and three are arities. -/
def ofCount? (n : Integer) : Option Arity :=
  if n = 1 then some .one
  else if n = 2 then some .two
  else if n = 3 then some .three
  else none

theorem ofCount?_eq_some_iff {n : Integer} {a : Arity} :
    ofCount? n = some a ↔ n.toInt = a.count := by
  -- Equality of words is equality of their values.
  have h1 : n = 1 ↔ n.toInt = 1 := Int64.toInt_inj.symm
  have h2 : n = 2 ↔ n.toInt = 2 := Int64.toInt_inj.symm
  have h3 : n = 3 ↔ n.toInt = 3 := Int64.toInt_inj.symm
  simp only [ofCount?, h1, h2, h3]
  cases a <;> grind [count]

end Arity

/-- A function without its body. The locals are the variables declared anywhere
    in the body, in source order; the location is that of the opening bar. -/
structure Signature where
  name : String
  parameters : List String
  locals : List String
  arity : Arity
  loc : Location
deriving DecidableEq, Repr

/-- A statement. Each carries the location that is blamed when it fails. -/
inductive Stmt where
  /-- Pushes a constant. -/
  | literal (value : Value) (loc : Location)
  /-- Replaces the two topmost values by a result. -/
  | operator (op : Operator) (loc : Location)
  /-- Sets a variable of the active scope to zero. -/
  | declare (name : String) (loc : Location)
  /-- Pushes the value of a variable. -/
  | read (name : String) (loc : Location)
  /-- Stores the topmost value in a variable. -/
  | assign (name : String) (loc : Location)
  /-- Runs a block if the topmost value is true. -/
  | ifThen (block : List Stmt) (loc : Location)
  /-- Runs one of two blocks, as the topmost value decides. -/
  | ifElse (block other : List Stmt) (loc : Location)
  /-- Runs a condition, and as long as it leaves true, a body. -/
  | loop (condition body : List Stmt) (loc : Location)
  /-- Declares a function. -/
  | function (signature : Signature) (body : List Stmt)
  /-- Calls a function. -/
  | call (name : String) (loc : Location)
  /-- Prints the topmost value. -/
  | print (loc : Location)
deriving Repr, Inhabited

/-- A function. -/
structure Function extends Signature where
  body : List Stmt
deriving Repr

namespace Stmt

/-- The location of a statement. -/
def loc : Stmt → Location
  | .literal _ l => l
  | .operator _ l => l
  | .declare _ l => l
  | .read _ l => l
  | .assign _ l => l
  | .ifThen _ l => l
  | .ifElse _ _ l => l
  | .loop _ _ l => l
  | .function signature _ => signature.loc
  | .call _ l => l
  | .print l => l

/-- The function that a statement declares. -/
def function? : Stmt → Option Function
  | .function signature body => some ⟨signature, body⟩
  | _ => none

end Stmt

/-- A program: its statements, and the variables declared outside functions in
    source order, including those in blocks that may never run. -/
structure Program where
  statements : List Stmt
  globals : List String
deriving Repr, Inhabited

/-- The functions declared directly at the top level, in source order. -/
def Program.functions (p : Program) : List Function :=
  p.statements.filterMap Stmt.function?

end StackLang
