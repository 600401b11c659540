import StackLang.Machine.Frame
import StackLang.Machine.Sink
import StackLang.Operator.Apply

/-!
# Running a statement

A machine is a program in execution: its call stack, its sink, and the limit on
active calls. It moves by single steps. A step takes the next statement of the
innermost cursor and runs it; or, where no statement remains, it removes the
cursor and does what the role of its block asks for; or, where no cursor
remains, it returns from the call. Without a call to return from the program is
finished.

Most statements act on the current frame alone. They are `FrameM` actions, and
`onFrame` lifts them to the machine. Only a call and a print reach further.

A step that fails leaves a definite state behind: what the statement had already
taken off the stack is gone, and nothing else has changed. So an action keeps
its state when it fails.

## Main definitions

* `FrameM`: Actions on a frame.
* `Machine`: A program in execution.
* `callScope`: The scope at the start of a call.
* `MachineM.call`: The effect of a call.
* `execute`: The effect of a statement.
* `Machine.finish`: The end of a block.
* `Machine.leaveCall`: The end of a call.
* `Machine.step`: One step.
-/

namespace StackLang

/-- Actions on a frame. The frame is kept when an action fails. -/
abbrev FrameM := EStateM Fault Frame

namespace FrameM

/-- Push a value. -/
@[inline]
def push (v : Value) : FrameM Unit :=
  fun f => .ok () { f with stack := f.stack.push v }

/-- Pop a value. -/
@[inline]
def pop : FrameM Value := fun f =>
  match f.stack.pop? with
  | some (v, s) => .ok v { f with stack := s }
  | none => .error (.stackUnderflow 1 0) f

/-- Replace the two topmost values by the result of an operator. Both are gone
    when the operator fails, but neither is when there are not two. -/
@[inline]
def operate (op : Operator) : FrameM Unit := fun f =>
  match f.stack.popPair? with
  | none => .error (.stackUnderflow 2 f.stack.size) f
  | some (lhs, rhs, s) =>
      match op.apply lhs rhs with
      | .ok v => .ok () { f with stack := s.push v }
      | .error fault => .error fault { f with stack := s }

/-- Pop the boolean that decides about a branch or a loop. -/
@[inline]
def popPredicate : FrameM Bool := do
  let v ← pop
  match v.asBool? with
  | some b => pure b
  | none => throw (.invalidPredicate v)

/-- The value of a variable. -/
@[inline]
def load (x : String) : FrameM Value := fun f =>
  match f.scope.value x with
  | .ok v => .ok v f
  | .error e => .error e.fault f

/-- Change the scope. -/
@[inline]
def onScope (change : Scope → Except ScopeError Scope) : FrameM Unit := fun f =>
  match change f.scope with
  | .ok s => .ok () { f with scope := s }
  | .error e => .error e.fault f

/-- Go on with a block before anything else. -/
@[inline]
def enter (c : Cursor) : FrameM Unit :=
  fun f => .ok () { f with cursors := c :: f.cursors }

end FrameM

variable {σ : Type}

/-- A program in execution. -/
structure Machine (σ : Type) where
  program : Program
  /-- The number of calls that may be active at once. -/
  limit : Nat
  calls : CallStack
  /-- Where printed values go. -/
  sink : σ

/-- Actions on a machine. The machine is kept when an action fails. -/
abbrev MachineM (σ : Type) := EStateM Fault (Machine σ)

namespace MachineM

/-- Act on the current frame. -/
@[inline]
def onFrame {α : Type} (x : FrameM α) : MachineM σ α := fun m =>
  match x m.calls.current with
  | .ok a f => .ok a { m with calls := m.calls.setCurrent f }
  | .error e f => .error e { m with calls := m.calls.setCurrent f }

/-- Hand a value to the sink. -/
@[inline]
def emit [Sink σ] (p : Printed) : MachineM σ Unit := fun m =>
  match Sink.emit p m.sink with
  | .ok _ s => .ok () { m with sink := s }
  | .error reason s => .error (.outputFailed reason) { m with sink := s }

end MachineM

/-- The scope at the start of a call: the parameters bound to the arguments, and
    every local variable at zero. -/
def callScope (function : Function) (arguments : List Value) : Except ScopeError Scope := do
  let bound ← (function.parameters.zip arguments).foldlM
    (fun s entry => s.declare entry.1 (.cell entry.2)) Scope.empty
  function.locals.foldlM Scope.allocate bound

namespace Machine

/-- The machine with another stack in its current frame. -/
@[inline]
def setStack (m : Machine σ) (s : Stack) : Machine σ :=
  { m with calls := m.calls.setCurrent { m.calls.current with stack := s } }

/-- The machine with other cursors in its current frame. -/
@[inline]
def setCursors (m : Machine σ) (cursors : List Cursor) : Machine σ :=
  { m with calls := m.calls.setCurrent { m.calls.current with cursors := cursors } }

end Machine

namespace MachineM

/-- Call a function. It is looked up in the global scope wherever the call is
    made, the limit is checked before the arguments are taken, and they are
    taken all or none. -/
def call (name : String) (site : Location) : MachineM σ Unit := fun m =>
  match m.calls.global.scope.function name with
  | .error e => .error e.fault m
  | .ok function =>
      if m.limit ≤ m.calls.depth then
        .error (.recursionLimit name m.limit) m
      else
        match m.calls.current.stack.popMany? function.parameters.length with
        | none =>
            .error (.stackUnderflow function.parameters.length m.calls.current.stack.size) m
        | some (arguments, below) =>
            -- From here on the arguments are gone, also if the scope clashes.
            let caller := m.setStack below
            match callScope function arguments with
            | .error e => .error e.fault caller
            | .ok s => .ok () { caller with calls := caller.calls.push (.ofCall function s site) }

end MachineM

open FrameM MachineM

/-- The effect of a statement. A function is bound before the program starts, so
    its declaration has none. -/
def execute [Sink σ] : Stmt → MachineM σ Unit
  | .literal v _ => onFrame (push v)
  | .operator op _ => onFrame (operate op)
  | .declare x _ => onFrame (onScope fun s => s.allocate x)
  | .read x _ => onFrame do
      let v ← load x
      push v
  | .assign x _ => onFrame do
      let v ← pop
      onScope fun s => s.assign x v
  | .ifThen block _ => onFrame do
      let b ← popPredicate
      if b then enter (.sequence block) else pure ()
  | .ifElse block other _ => onFrame do
      let b ← popPredicate
      enter (.sequence (if b then block else other))
  | .loop condition body loc => onFrame (enter (.condition ⟨condition, body, loc⟩))
  | .function _ _ => pure ()
  | .call name site => call name site
  | .print loc => do
      let v ← onFrame pop
      emit ⟨v, loc⟩

/-- What a step leads to. -/
inductive Step (σ : Type) where
  | running (m : Machine σ)
  | finished (m : Machine σ)
  | failed (e : RuntimeError) (m : Machine σ)

/-- The step that an action makes, blamed on `loc` if it fails. -/
@[inline]
def Step.of (loc : Location) : EStateM.Result Fault (Machine σ) Unit → Step σ
  | .ok _ m => .running m
  | .error fault m => .failed ⟨fault, loc⟩ m

namespace Machine

/-- The end of a block, its cursor already removed. -/
def finish (m : Machine σ) : Role → Step σ
  | .sequence => .running m
  | .condition loop =>
      Step.of loop.loc <| onFrame (do
        let b ← popPredicate
        if b then enter (.body loop) else pure ()) m
  | .body loop => Step.of loop.loc (onFrame (enter (.condition loop)) m)

/-- The end of a call, which leaves the given callers: its topmost values, as many
    as the function hands back, go to the caller and all else is dropped. -/
def leaveCall (m : Machine σ) (call : CallFrame) (callers : CallStack) : Step σ :=
  let caller : Machine σ := { m with calls := callers }
  match call.stack.popMany? call.function.arity.count with
  | some (results, _) => .running (caller.setStack (caller.calls.current.stack.extend results))
  | none =>
      .failed ⟨.stackUnderflow call.function.arity.count call.stack.size, call.site⟩ caller

/-- One step. -/
def step [Sink σ] (m : Machine σ) : Step σ :=
  match m.calls.current.cursors with
  | c :: cursors =>
      -- The cursor moves on before its statement is run, so a block that the
      -- statement enters ends where the next statement starts.
      match c.next? with
      | some (s, c) => Step.of s.loc (execute s (m.setCursors (c :: cursors)))
      | none => (m.setCursors cursors).finish c.role
  | [] =>
      match m.calls.pop? with
      | none => .finished m
      | some (call, callers) => m.leaveCall call callers

end Machine

end StackLang
