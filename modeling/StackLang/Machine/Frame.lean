import StackLang.Machine.Scope
import StackLang.Machine.Stack

/-!
# Frames and the call stack

Nesting at run time is data. A frame has a stack and a scope of its own, and a
list of cursors: what remains of the block being run, of the block around it,
and so on outwards. Entering a block adds a cursor, and finishing one removes
it. A call adds a whole frame. So the depth of calls is a number that can be
compared with a limit, and it never depends on the machine that runs the
program.

A cursor knows what its block is for, because that decides what happens at its
end: nothing, a test, or another round of a loop.

## Main definitions

* `Loop`: The parts of a loop.
* `Role`: What a block is for.
* `Cursor`: What remains of a block.
* `Frame`: Stack, scope and cursors.
* `CallFrame`: A frame with its function and the place of the call.
* `CallStack`: The global frame and the active calls.

## Theorems

* `CallStack.current_setCurrent`, `CallStack.setCurrent_current`: The current
  frame is what was put there.
* `CallStack.depth_setCurrent`: Changing a frame keeps the number of calls.
* `CallStack.pop?_push`: Returning undoes a call.
* `CallStack.pop?_eq_none_iff`: Only without calls there is none to return from.
-/

namespace StackLang

/-- The parts of a loop, and its location. -/
structure Loop where
  condition : List Stmt
  body : List Stmt
  loc : Location
deriving Repr

/-- What a block is for, and so what follows its last statement. -/
inductive Role where
  /-- A program, a function body or a branch; nothing follows. -/
  | sequence
  /-- The condition of a loop; its result is tested. -/
  | condition (loop : Loop)
  /-- The body of a loop; its condition comes next. -/
  | body (loop : Loop)
deriving Repr

/-- The statements of a block that have not been run yet. -/
structure Cursor where
  rest : List Stmt
  role : Role
deriving Repr

namespace Cursor

/-- The start of a plain block. -/
def sequence (block : List Stmt) : Cursor := ⟨block, .sequence⟩

/-- The start of a loop's condition. -/
def condition (loop : Loop) : Cursor := ⟨loop.condition, .condition loop⟩

/-- The start of a loop's body. -/
def body (loop : Loop) : Cursor := ⟨loop.body, .body loop⟩

/-- Whether no statement remains. -/
def isExhausted (c : Cursor) : Bool := c.rest.isEmpty

/-- The next statement, and the cursor after it. -/
@[inline]
def next? (c : Cursor) : Option (Stmt × Cursor) :=
  match c.rest with
  | [] => none
  | s :: rest => some (s, { c with rest := rest })

end Cursor

/-- Where statements are run: a stack, a scope, and what remains to be done. -/
structure Frame where
  stack : Stack
  scope : Scope
  /-- What remains of the blocks being run, innermost first. -/
  cursors : List Cursor
deriving Repr

/-- The frame of a call. -/
structure CallFrame extends Frame where
  function : Function
  /-- Where the call was made. -/
  site : Location
deriving Repr

namespace CallFrame

/-- The frame at the start of a call: an empty stack and the body to be run. -/
def ofCall (function : Function) (scope : Scope) (site : Location) : CallFrame where
  stack := .empty
  scope := scope
  cursors := [.sequence function.body]
  function := function
  site := site

end CallFrame

/-- The frame of the program itself, and those of the active calls. Every call
    compares their number with the limit, so it is kept beside them. -/
structure CallStack where
  global : Frame
  /-- The active calls, innermost first. -/
  calls : List CallFrame
  /-- The number of active calls. -/
  depth : Nat
  depth_eq : depth = calls.length
deriving Repr

namespace CallStack

/-- No active calls, with the given statements to be run. -/
def ofGlobal (scope : Scope) (stack : Stack) (statements : List Stmt) : CallStack :=
  ⟨⟨stack, scope, [.sequence statements]⟩, [], 0, rfl⟩

/-- The frame in which statements are run now. -/
@[inline]
def current (c : CallStack) : Frame :=
  match c.calls with
  | [] => c.global
  | call :: _ => call.toFrame

/-- The innermost call. -/
def innermost? (c : CallStack) : Option CallFrame := c.calls.head?

/-- The call stack with another current frame. -/
@[inline]
def setCurrent (c : CallStack) (f : Frame) : CallStack :=
  match c with
  | ⟨_, [], depth, h⟩ => ⟨f, [], depth, h⟩
  | ⟨g, call :: outer, depth, h⟩ => ⟨g, { call with toFrame := f } :: outer, depth, h⟩

/-- The call stack with one more call. -/
@[inline]
def push (c : CallStack) (call : CallFrame) : CallStack :=
  ⟨c.global, call :: c.calls, c.depth + 1, congrArg (· + 1) c.depth_eq⟩

/-- The innermost call, and the call stack without it. -/
def pop? (c : CallStack) : Option (CallFrame × CallStack) :=
  match c with
  | ⟨_, [], _, _⟩ => none
  | ⟨g, call :: outer, depth, h⟩ => some (call, ⟨g, outer, depth - 1, congrArg (· - 1) h⟩)

@[simp]
theorem current_setCurrent (c : CallStack) (f : Frame) : (c.setCurrent f).current = f := by
  obtain ⟨g, calls, depth, h⟩ := c
  cases calls <;> rfl

@[simp]
theorem depth_setCurrent (c : CallStack) (f : Frame) : (c.setCurrent f).depth = c.depth := by
  obtain ⟨g, calls, depth, h⟩ := c
  cases calls <;> rfl

@[simp]
theorem setCurrent_current (c : CallStack) : c.setCurrent c.current = c := by
  obtain ⟨g, calls, depth, h⟩ := c
  cases calls <;> rfl

@[simp]
theorem pop?_push (c : CallStack) (call : CallFrame) : (c.push call).pop? = some (call, c) := rfl

theorem pop?_eq_none_iff {c : CallStack} : c.pop? = none ↔ c.depth = 0 := by
  obtain ⟨g, calls, depth, h⟩ := c
  subst h
  cases calls with
  | nil => exact ⟨fun _ => rfl, fun _ => rfl⟩
  | cons call outer => simp [pop?]

end CallStack

end StackLang
