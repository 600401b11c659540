import StackLang.Machine.Step

/-!
# Moves

What a step does, seen from the frame it happens in.

`Machine.step` works on a whole machine, and most of a machine is beside the
point: a statement reads and writes one stack, one scope and the sink. That part
is a `Store`. From the store, the cursors of the frame, the functions that can be
called and the number of active calls alone follows what the step will be, and
`move` is that function. Its value is one of four moves: to stay in the frame, to
call, to leave the frame, or to fail.

`Machine.step_eq` says that a step of a machine is its move, applied to the
machine. Arguments about runs need no other fact about steps. In particular the
frames below the current one do not occur in `move` at all, so they neither
influence a step nor change by one that stays.

## Main definitions

* `Store`: What statements work on.
* `Store.perform`: The effect of a statement that neither branches nor calls.
* `Store.popBool`: The boolean that decides about a branch or a loop.
* `Store.openCall`: The start of a call, as far as the caller is concerned.
* `Move`: What a step does.
* `moveStmt`, `moveEnd`, `move`: The move of a statement, of the end of a block,
  and of a list of cursors.
* `Machine.place`: A machine with another store and other cursors in its current
  frame.
* `Machine.enterCall`: A machine with one more call.
* `Machine.next?`: The statement that is run next.
* `Move.apply`: The step that a move makes.

## Theorems

* `Machine.place_place`: Only the last placement counts.
* `Machine.step_eq`: A step is a move.
* `nil_of_move_leave`: A frame is left only where nothing remains in it.
* `openCall_of_move`: A move into a call is the start of that call.
* `openCall_eq_ok`: What has been checked and taken where a call starts.
* `Machine.apply_leave_cases`: The ways in which a frame is left.
* `Machine.exists_step_of_next?`: The step that runs a statement is its move.
-/

namespace StackLang

variable {σ : Type}

/-- What statements work on: a scope, a stack, and the sink. -/
structure Store (σ : Type) where
  scope : Scope
  stack : Stack
  sink : σ

namespace Store

/-- Pop a value. -/
def pop : EStateM Fault (Store σ) Value := fun a =>
  match a.stack.pop? with
  | some (v, below) => .ok v { a with stack := below }
  | none => .error (.stackUnderflow 1 0) a

/-- Pop the boolean that decides about a branch or a loop. -/
def popBool : EStateM Fault (Store σ) Bool := fun a =>
  match a.stack.pop? with
  | none => .error (.stackUnderflow 1 0) a
  | some (v, below) =>
      match v.asBool? with
      | some b => .ok b { a with stack := below }
      | none => .error (.invalidPredicate v) { a with stack := below }

/-- Change the scope. -/
def onScope (change : Scope → Except ScopeError Scope) : EStateM Fault (Store σ) Unit := fun a =>
  match change a.scope with
  | .ok s => .ok () { a with scope := s }
  | .error e => .error e.fault a

/-- Push a value. -/
def push (v : Value) : EStateM Fault (Store σ) Unit := fun a =>
  .ok () { a with stack := a.stack.push v }

/-- Replace the two topmost values by the result of an operator. -/
def operate (op : Operator) : EStateM Fault (Store σ) Unit := fun a =>
  match a.stack.popPair? with
  | none => .error (.stackUnderflow 2 a.stack.size) a
  | some (lhs, rhs, below) =>
      match op.apply lhs rhs with
      | .ok v => .ok () { a with stack := below.push v }
      | .error fault => .error fault { a with stack := below }

/-- Push the value of a variable. -/
def load (x : String) : EStateM Fault (Store σ) Unit := fun a =>
  match a.scope.value x with
  | .ok v => .ok () { a with stack := a.stack.push v }
  | .error e => .error e.fault a

/-- Pop a value into a variable. -/
def save (x : String) : EStateM Fault (Store σ) Unit := fun a =>
  match pop a with
  | .ok v b => onScope (fun s => s.assign x v) b
  | .error fault b => .error fault b

/-- Pop a value into the sink. -/
def print [Sink σ] (loc : Location) : EStateM Fault (Store σ) Unit := fun a =>
  match pop a with
  | .ok v b =>
      match Sink.emit ⟨v, loc⟩ b.sink with
      | .ok _ s => .ok () { b with sink := s }
      | .error reason s => .error (.outputFailed reason) { b with sink := s }
  | .error fault b => .error fault b

/-- The effect of a statement that neither branches nor calls. -/
def perform [Sink σ] : Stmt → EStateM Fault (Store σ) Unit
  | .literal v _ => push v
  | .operator op _ => operate op
  | .declare x _ => onScope fun s => s.allocate x
  | .read x _ => load x
  | .assign x _ => save x
  | .print loc => print loc
  | .ifThen _ _ | .ifElse _ _ _ | .loop _ _ _ | .function _ _ | .call _ _ => pure ()

/-- The start of a call, as far as the caller is concerned: the function is found,
    the limit allows one more call, the arguments are taken, and they make the
    scope of the call. -/
def openCall (look : String → Except ScopeError Function) (limit depth : Nat) (name : String) :
    EStateM Fault (Store σ) (Function × Scope) := fun a =>
  match look name with
  | .error e => .error e.fault a
  | .ok function =>
      if limit ≤ depth then .error (.recursionLimit name limit) a
      else
        match a.stack.popMany? function.parameters.length with
        | none => .error (.stackUnderflow function.parameters.length a.stack.size) a
        | some (arguments, below) =>
            match callScope function arguments with
            | .error e => .error e.fault { a with stack := below }
            | .ok s => .ok (function, s) { a with stack := below }

end Store

/-- What a step does, seen from the frame it happens in. -/
inductive Move (σ : Type) where
  /-- Go on in the same frame. -/
  | stay (a : Store σ) (cursors : List Cursor)
  /-- Go on in a new frame. -/
  | call (a : Store σ) (cursors : List Cursor) (function : Function) (scope : Scope)
      (site : Location)
  /-- Nothing remains to be done in this frame. -/
  | leave
  | fail (e : RuntimeError) (a : Store σ) (cursors : List Cursor)

/-- The move that an action on the store makes, with the cursors that follow. -/
def Move.of {α : Type} (loc : Location) (next : α → List Cursor) (kept : List Cursor) :
    EStateM.Result Fault (Store σ) α → Move σ
  | .ok v a => .stay a (next v)
  | .error fault a => .fail ⟨fault, loc⟩ a kept

/-- The move of a statement, with the cursors after it. -/
def moveStmt [Sink σ] (look : String → Except ScopeError Function) (limit depth : Nat)
    (s : Stmt) (a : Store σ) (cursors : List Cursor) : Move σ :=
  match s with
  | .ifThen block loc =>
      Move.of loc (fun b => if b then .sequence block :: cursors else cursors) cursors a.popBool
  | .ifElse block other loc =>
      Move.of loc (fun b => .sequence (if b then block else other) :: cursors) cursors a.popBool
  | .loop condition body loc => .stay a (.condition ⟨condition, body, loc⟩ :: cursors)
  | .call name site =>
      match Store.openCall look limit depth name a with
      | .ok (function, scope) b => .call b cursors function scope site
      | .error fault b => .fail ⟨fault, site⟩ b cursors
  | s => Move.of s.loc (fun _ => cursors) cursors (Store.perform s a)

/-- The move at the end of a block, with the cursors below it. -/
def moveEnd (role : Role) (a : Store σ) (cursors : List Cursor) : Move σ :=
  match role with
  | .sequence => .stay a cursors
  | .condition loop =>
      Move.of loop.loc (fun b => if b then .body loop :: cursors else cursors) cursors a.popBool
  | .body loop => .stay a (.condition loop :: cursors)

/-- The move of a list of cursors. -/
def move [Sink σ] (look : String → Except ScopeError Function) (limit depth : Nat)
    (a : Store σ) : List Cursor → Move σ
  | [] => .leave
  | ⟨[], role⟩ :: cursors => moveEnd role a cursors
  | ⟨s :: rest, role⟩ :: cursors => moveStmt look limit depth s a (⟨rest, role⟩ :: cursors)

namespace Machine

/-- The store of the current frame. -/
def store (m : Machine σ) : Store σ := ⟨m.calls.current.scope, m.calls.current.stack, m.sink⟩

/-- The machine with another store and other cursors in its current frame. -/
def place (m : Machine σ) (a : Store σ) (cursors : List Cursor) : Machine σ :=
  { m with calls := m.calls.setCurrent ⟨a.stack, a.scope, cursors⟩, sink := a.sink }

/-- The machine with one more call. -/
def enterCall (m : Machine σ) (function : Function) (scope : Scope) (site : Location) :
    Machine σ :=
  { m with calls := m.calls.push (.ofCall function scope site) }

/-- The statement that is run next. -/
def next? (m : Machine σ) : Option Stmt :=
  match m.calls.current.cursors with
  | [] => none
  | c :: _ => c.rest.head?

/-- The functions that can be called. -/
def look (m : Machine σ) : String → Except ScopeError Function := m.calls.global.scope.function

end Machine

/-- The step that a move makes. -/
def Move.apply (m : Machine σ) : Move σ → Step σ
  | .stay a cursors => .running (m.place a cursors)
  | .call a cursors function scope site =>
      .running ((m.place a cursors).enterCall function scope site)
  | .leave =>
      match m.calls.pop? with
      | none => .finished m
      | some (finished, callers) => m.leaveCall finished callers
  | .fail e a cursors => .failed e (m.place a cursors)

namespace CallStack

@[simp]
theorem setCurrent_setCurrent (c : CallStack) (f g : Frame) :
    (c.setCurrent f).setCurrent g = c.setCurrent g := by
  rcases c with ⟨global, calls, depth, h⟩
  cases calls <;> rfl

theorem global_setCurrent (c : CallStack) (f : Frame) :
    (c.setCurrent f).global = if c.depth = 0 then f else c.global := by
  rcases c with ⟨global, calls, depth, h⟩
  subst h
  cases calls <;> rfl

theorem current_of_depth_eq_zero {c : CallStack} (h : c.depth = 0) : c.current = c.global := by
  rcases c with ⟨global, calls, depth, hdepth⟩
  subst hdepth
  cases calls with
  | nil => rfl
  | cons call outer => exact absurd h (Nat.succ_ne_zero _)

end CallStack

namespace Machine

@[simp]
theorem place_place (m : Machine σ) (a b : Store σ) (cs ds : List Cursor) :
    (m.place a cs).place b ds = m.place b ds := by
  simp only [place, CallStack.setCurrent_setCurrent]

@[simp]
theorem current_place (m : Machine σ) (a : Store σ) (cs : List Cursor) :
    (m.place a cs).calls.current = ⟨a.stack, a.scope, cs⟩ := by
  simp only [place, CallStack.current_setCurrent]

@[simp]
theorem depth_place (m : Machine σ) (a : Store σ) (cs : List Cursor) :
    (m.place a cs).calls.depth = m.calls.depth := by
  simp only [place, CallStack.depth_setCurrent]

@[simp]
theorem limit_place (m : Machine σ) (a : Store σ) (cs : List Cursor) :
    (m.place a cs).limit = m.limit := rfl

@[simp]
theorem sink_place (m : Machine σ) (a : Store σ) (cs : List Cursor) :
    (m.place a cs).sink = a.sink := rfl

@[simp]
theorem store_place (m : Machine σ) (a : Store σ) (cs : List Cursor) :
    (m.place a cs).store = a := by
  simp only [store, current_place, sink_place]

theorem setCursors_eq_place (m : Machine σ) (cs : List Cursor) :
    m.setCursors cs = m.place m.store cs := by
  simp only [setCursors, place, store]

theorem setStack_eq_place (m : Machine σ) (s : Stack) :
    m.setStack s = m.place { m.store with stack := s } m.calls.current.cursors := by
  simp only [setStack, place, store]

theorem setStack_place (m : Machine σ) (a : Store σ) (cs : List Cursor) (s : Stack) :
    (m.place a cs).setStack s = m.place { a with stack := s } cs := by
  simp only [setStack, current_place]
  simp only [place, CallStack.setCurrent_setCurrent]

theorem global_place (m : Machine σ) (a : Store σ) (cs : List Cursor) :
    (m.place a cs).calls.global =
      if m.calls.depth = 0 then ⟨a.stack, a.scope, cs⟩ else m.calls.global :=
  CallStack.global_setCurrent m.calls _

/-- The functions that can be called after a change of the current frame: only in
    the global frame does the change matter. -/
theorem look_place (m : Machine σ) (a : Store σ) (cs : List Cursor) :
    (m.place a cs).look = if m.calls.depth = 0 then a.scope.function else m.look := by
  rw [look, global_place]
  by_cases h : m.calls.depth = 0
  · rw [if_pos h, if_pos h]
  · rw [if_neg h, if_neg h, look]

theorem look_store (m : Machine σ) (cs : List Cursor) : (m.place m.store cs).look = m.look := by
  rw [look_place]
  by_cases h : m.calls.depth = 0
  · rw [if_pos h, look, store, CallStack.current_of_depth_eq_zero h]
  · rw [if_neg h]

end Machine

section Steps

open FrameM MachineM Machine

variable (m : Machine σ) (a : Store σ) (cs : List Cursor)

/-- An action on the current frame of a placed machine, when the action is known
    on that frame. -/
theorem onFrame_place {α : Type} (x : FrameM α) :
    onFrame x (m.place a cs) =
      match x ⟨a.stack, a.scope, cs⟩ with
      | .ok v f => .ok v (m.place ⟨f.scope, f.stack, a.sink⟩ f.cursors)
      | .error fault f => .error fault (m.place ⟨f.scope, f.stack, a.sink⟩ f.cursors) := by
  simp only [onFrame, current_place]
  cases x ⟨a.stack, a.scope, cs⟩ with
  | ok v f => simp only [place, CallStack.setCurrent_setCurrent]
  | error fault f => simp only [place, CallStack.setCurrent_setCurrent]

/-- Popping a predicate and entering the blocks that it selects. -/
theorem onFrame_popPredicate (loc : Location) (enters : Bool → FrameM Unit)
    (next : Bool → List Cursor)
    (henters : ∀ b f, f.cursors = cs → enters b f = .ok () { f with cursors := next b }) :
    Step.of loc (onFrame (do let b ← popPredicate; enters b) (m.place a cs)) =
      Move.apply m (Move.of loc next cs a.popBool) := by
  rw [onFrame_place]
  simp only [popPredicate, FrameM.pop, Store.popBool, Bind.bind, EStateM.bind]
  cases a.stack.pop? with
  | none => rfl
  | some top =>
      rcases top with ⟨v, below⟩
      cases v with
      | int n => rfl
      | bool b =>
          simp only [Value.asBool?, Pure.pure, EStateM.pure, henters]
          rfl

variable [Sink σ]

/-- The step that a statement makes is its move. -/
theorem execute_eq_moveStmt (s : Stmt) :
    Step.of s.loc (execute s (m.place a cs)) =
      Move.apply m (moveStmt (m.place a cs).look m.limit m.calls.depth s a cs) := by
  cases s with
  | literal v loc =>
      simp only [execute, onFrame_place]
      rfl
  | operator op loc =>
      simp only [execute, onFrame_place, FrameM.operate, moveStmt, Store.perform, Store.operate]
      cases a.stack.popPair? with
      | none => rfl
      | some top =>
          rcases top with ⟨lhs, rhs, below⟩
          simp only []
          cases op.apply lhs rhs <;> rfl
  | declare x loc =>
      simp only [execute, onFrame_place, FrameM.onScope, moveStmt, Store.perform, Store.onScope]
      cases a.scope.allocate x <;> rfl
  | read x loc =>
      simp only [execute, onFrame_place, Bind.bind, EStateM.bind, FrameM.load, moveStmt,
        Store.perform, Store.load]
      cases a.scope.value x <;> rfl
  | assign x loc =>
      simp only [execute, onFrame_place, Bind.bind, EStateM.bind, FrameM.pop, moveStmt,
        Store.perform, Store.save, Store.pop]
      cases a.stack.pop? with
      | none => rfl
      | some top =>
          rcases top with ⟨v, below⟩
          simp only [FrameM.onScope, Store.onScope]
          cases a.scope.assign x v <;> rfl
  | ifThen block loc =>
      refine onFrame_popPredicate m a cs loc _ _ fun b f hf => ?_
      cases b with
      | true => rw [← hf]; rfl
      | false => rw [← hf]; rfl
  | ifElse block other loc =>
      refine onFrame_popPredicate m a cs loc _ _ fun b f hf => ?_
      rw [← hf]
      rfl
  | loop condition body loc =>
      simp only [execute, onFrame_place]
      rfl
  | function signature body => rfl
  | call name site =>
      simp only [execute, MachineM.call, moveStmt, Store.openCall, current_place, depth_place,
        limit_place, setStack_place, look]
      cases (m.place a cs).calls.global.scope.function name with
      | error e => rfl
      | ok function =>
          by_cases hlimit : m.limit ≤ m.calls.depth
          · simp only [hlimit, if_true]
            rfl
          · simp only [hlimit, if_false]
            cases a.stack.popMany? function.parameters.length with
            | none => rfl
            | some taken =>
                rcases taken with ⟨arguments, below⟩
                simp only []
                cases callScope function arguments <;> rfl
  | print loc =>
      simp only [execute, Bind.bind, EStateM.bind, onFrame_place, FrameM.pop, moveStmt,
        Store.perform, Store.print, Store.pop]
      cases a.stack.pop? with
      | none => rfl
      | some top =>
          rcases top with ⟨v, below⟩
          simp only [MachineM.emit, sink_place]
          cases Sink.emit ⟨v, loc⟩ a.sink <;> rfl

omit [Sink σ] in
/-- The step at the end of a block is its move. -/
theorem finish_eq_moveEnd (role : Role) :
    (m.place a cs).finish role = Move.apply m (moveEnd role a cs) := by
  cases role with
  | sequence => rfl
  | condition loop =>
      refine onFrame_popPredicate m a cs loop.loc _ _ fun b f hf => ?_
      cases b with
      | true => rw [← hf]; rfl
      | false => rw [← hf]; rfl
  | body loop =>
      simp only [finish, onFrame_place]
      rfl

/-- A step of a machine is its move, applied to the machine. -/
theorem Machine.step_eq :
    m.step =
      Move.apply m (move m.look m.limit m.calls.depth m.store m.calls.current.cursors) := by
  cases hcs : m.calls.current.cursors with
  | nil =>
      cases hpop : m.calls.pop? with
      | none => simp only [Machine.step, hcs, move, Move.apply, hpop]
      | some top => simp only [Machine.step, hcs, move, Move.apply, hpop]
  | cons c cs =>
      rcases c with ⟨rest, role⟩
      cases rest with
      | nil =>
          simp only [Machine.step, hcs, Cursor.next?, setCursors_eq_place]
          exact finish_eq_moveEnd m m.store cs role
      | cons s rest =>
          simp only [Machine.step, hcs, Cursor.next?, setCursors_eq_place]
          -- Moving a cursor on does not touch the functions that can be called.
          rw [execute_eq_moveStmt, look_store]
          rfl

omit [Sink σ] in
theorem Move.of_ne_call {α : Type} {loc : Location} {next : α → List Cursor}
    {kept cs : List Cursor} {r : EStateM.Result Fault (Store σ) α} {b : Store σ} {f : Function}
    {scope : Scope} {site : Location} : Move.of loc next kept r ≠ .call b cs f scope site := by
  cases r <;> exact nofun

omit [Sink σ] in
theorem Move.of_ne_leave {α : Type} {loc : Location} {next : α → List Cursor}
    {kept : List Cursor} {r : EStateM.Result Fault (Store σ) α} :
    Move.of loc next kept r ≠ .leave := by
  cases r <;> exact nofun

/-- A frame is left only where nothing remains in it. -/
theorem nil_of_move_leave {look : String → Except ScopeError Function} {limit depth : Nat}
    {a : Store σ} {cs : List Cursor} (h : move look limit depth a cs = .leave) : cs = [] := by
  rcases cs with _ | ⟨⟨_ | ⟨s, rest⟩, role⟩, outer⟩
  · rfl
  · cases role with
    | sequence => cases h
    | condition loop => exact absurd h Move.of_ne_leave
    | body loop => cases h
  · cases s with
    | call name site =>
        simp only [move, moveStmt] at h
        cases hopen : Store.openCall look limit depth name a with
        | ok started c => rw [hopen] at h; cases h
        | error fault c => rw [hopen] at h; cases h
    | literal | loop | function => cases h
    | operator | declare | read | assign | ifThen | ifElse | print =>
        exact absurd h Move.of_ne_leave

/-- A move into a call is the start of the call that comes next. -/
theorem openCall_of_move {look : String → Except ScopeError Function} {limit depth : Nat}
    {a b : Store σ} {cs cs' : List Cursor} {f : Function} {scope : Scope} {site : Location}
    (h : move look limit depth a cs = .call b cs' f scope site) :
    ∃ name rest role outer, cs = ⟨.call name site :: rest, role⟩ :: outer ∧
      Store.openCall look limit depth name a = .ok (f, scope) b := by
  rcases cs with _ | ⟨⟨_ | ⟨s, rest⟩, role⟩, outer⟩
  · cases h
  · cases role with
    | sequence => cases h
    | condition loop => exact absurd h Move.of_ne_call
    | body loop => cases h
  · cases s with
    | call name site' =>
        simp only [move, moveStmt] at h
        cases hopen : Store.openCall look limit depth name a with
        | ok started c => rw [hopen] at h; cases h; exact ⟨name, rest, role, outer, rfl, hopen⟩
        | error fault c => rw [hopen] at h; cases h
    | literal | loop | function => cases h
    | operator | declare | read | assign | ifThen | ifElse | print =>
        exact absurd h Move.of_ne_call

omit [Sink σ] in
/-- What has been checked and taken where a call starts. -/
theorem openCall_eq_ok {look : String → Except ScopeError Function} {limit depth : Nat}
    {name : String} {a b : Store σ} {f : Function} {scope : Scope}
    (h : Store.openCall look limit depth name a = .ok (f, scope) b) :
    look name = .ok f ∧ depth < limit ∧ ∃ arguments below,
      a.stack.popMany? f.parameters.length = some (arguments, below) ∧
        callScope f arguments = .ok scope ∧ b = { a with stack := below } := by
  unfold Store.openCall at h
  cases hlook : look name with
  | error e => rw [hlook] at h; cases h
  | ok g =>
      by_cases hlimit : limit ≤ depth
      · simp only [hlook, hlimit, if_true] at h
        cases h
      · simp only [hlook, hlimit, if_false] at h
        cases hpop : a.stack.popMany? g.parameters.length with
        | none => rw [hpop] at h; cases h
        | some taken =>
            simp only [hpop] at h
            cases hscope : callScope g taken.1 with
            | error e => rw [hscope] at h; cases h
            | ok t =>
                rw [hscope] at h
                cases h
                exact ⟨rfl, Nat.lt_of_not_le hlimit, taken.1, taken.2, hpop, hscope, rfl⟩

omit [Sink σ] in
/-- The ways in which a frame is left: the program is over, or a call hands back its
    results, or it has too few. -/
theorem Machine.apply_leave_cases :
    (m.calls.depth = 0 ∧ Move.leave.apply m = .finished m) ∨
    ∃ call callers, m.calls.pop? = some (call, callers) ∧
      ((∃ results, Move.leave.apply m =
          .running (({ m with calls := callers } : Machine σ).setStack
            (callers.current.stack.extend results))) ∨
        ∃ e, Move.leave.apply m = .failed e { m with calls := callers }) := by
  unfold Move.apply
  cases hpop : m.calls.pop? with
  | none => exact .inl ⟨CallStack.pop?_eq_none_iff.1 hpop, rfl⟩
  | some top =>
      rcases top with ⟨call, callers⟩
      refine .inr ⟨call, callers, rfl, ?_⟩
      simp only [leaveCall]
      cases call.stack.popMany? call.function.arity.count with
      | none => exact .inr ⟨_, rfl⟩
      | some taken => exact .inl ⟨taken.1, rfl⟩

omit [Sink σ] in
theorem Machine.exists_cursors_of_next? {s : Stmt} (h : m.next? = some s) :
    ∃ rest role cursors, m.calls.current.cursors = ⟨s :: rest, role⟩ :: cursors := by
  unfold Machine.next? at h
  cases hcs : m.calls.current.cursors with
  | nil => rw [hcs] at h; cases h
  | cons c cursors =>
      rw [hcs] at h
      rcases c with ⟨rest, role⟩
      cases rest with
      | nil => cases h
      | cons t rest => cases h; exact ⟨rest, role, cursors, rfl⟩

/-- The step that runs a statement. -/
theorem Machine.exists_step_of_next? {s : Stmt} (h : m.next? = some s) :
    ∃ cursors, m.step =
      Move.apply m (moveStmt m.look m.limit m.calls.depth s m.store cursors) := by
  rcases exists_cursors_of_next? m h with ⟨rest, role, cursors, hcs⟩
  exact ⟨⟨rest, role⟩ :: cursors, by rw [step_eq, hcs, move]⟩

/-- The step at the end of a call hands the results to the caller. -/
theorem Machine.step_enterCall_nil (b : Store σ) (function : Function) (scope : Scope)
    (site : Location) :
    (((m.place a cs).enterCall function scope site).place b []).step =
      match b.stack.popMany? function.arity.count with
      | some (results, _) =>
          .running (m.place ⟨a.scope, a.stack.extend results, b.sink⟩ cs)
      | none =>
          .failed ⟨.stackUnderflow function.arity.count b.stack.size, site⟩
            (m.place ⟨a.scope, a.stack, b.sink⟩ cs) := by
  rw [Machine.step_eq, current_place]
  simp only [move, Move.apply]
  -- The frame that is left is the one that was entered, and the caller's is as
  -- the call found it.
  change leaveCall _ { CallFrame.ofCall function scope site with toFrame := ⟨b.stack, b.scope, []⟩ }
    (m.place a cs).calls = _
  simp only [leaveCall, CallFrame.ofCall, current_place]
  cases b.stack.popMany? function.arity.count with
  | none => rfl
  | some taken =>
      simp only [setStack, place, CallStack.setCurrent_setCurrent, CallStack.current_setCurrent]
      rfl

end Steps

end StackLang
