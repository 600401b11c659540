import StackLang.Proofs.Sinks

/-!
# Activations

A call by itself, cut out of the machine that makes it.

From its first step to its last a call works on frames of its own: the one it was
given, and those of the calls made from it. These frames and the sink are an
`Activation`. Besides them a step reads the functions that can be called, the
limit, and the number of calls that were active before. It never reads the frames
below. So an activation can take steps without a machine, and
`Machine.step_within` says that a machine whose innermost frames are those of an
activation takes the same steps, with everything below left as it is, until the
call hands its results back.

## Main definitions

* `Activation`: The frames of a call and of the calls made from it.
* `Activation.Stage`: What a step of an activation, or several, lead to.
* `Activation.ofCall`: The start of a call.
* `Activation.leave`: The end of the innermost call.
* `Activation.step`: One step.
* `Activation.stepFor`: So many steps, as long as the call lasts.
* `Machine.within`: A machine with the frames of an activation above its own.
* `Machine.resume`: A machine to which results have been handed back.
* `Activation.Stage.apply`: The step of a machine that an activation makes.

## Theorems

* `Machine.step_within`: A machine steps as the activation within it does.
* `Activation.step_mapSink`: Activations commute with a homomorphism of sinks.
-/

namespace StackLang

variable {σ τ : Type}

/-- The frames of a call and of the calls made from it, and the sink. -/
structure Activation (σ : Type) where
  /-- The innermost frame. -/
  top : CallFrame
  /-- The frames that wait for it, innermost first. -/
  waiting : List CallFrame
  sink : σ

/-- What a step of an activation, or several, lead to. -/
inductive Activation.Stage (σ : Type) where
  | running (a : Activation σ)
  /-- The call is over and hands back its results. -/
  | returned (results : List Value) (sink : σ)
  /-- The call has failed and leaves the given frames. -/
  | failed (e : RuntimeError) (frames : List CallFrame) (sink : σ)

namespace Activation

/-- The store of the innermost frame. -/
def store (a : Activation σ) : Store σ := ⟨a.top.scope, a.top.stack, a.sink⟩

/-- The activation at the start of a call. -/
def ofCall (function : Function) (scope : Scope) (site : Location) (sink : σ) : Activation σ :=
  ⟨.ofCall function scope site, [], sink⟩

/-- The innermost frame with another store and other cursors. -/
def placed (a : Activation σ) (b : Store σ) (cs : List Cursor) : CallFrame :=
  { a.top with toFrame := ⟨b.stack, b.scope, cs⟩ }

/-- The end of the innermost call: its results go to the frame that waits for them, if
    there is one, and otherwise they are those of the whole. -/
def leave (a : Activation σ) : Stage σ :=
  match a.top.stack.popMany? a.top.function.arity.count with
  | none =>
      .failed ⟨.stackUnderflow a.top.function.arity.count a.top.stack.size, a.top.site⟩
        a.waiting a.sink
  | some (results, _) =>
      match a.waiting with
      | [] => .returned results a.sink
      | caller :: waiting =>
          .running ⟨{ caller with stack := caller.stack.extend results }, waiting, a.sink⟩

variable [Sink σ]

/-- One step, on top of `depth` other calls. -/
def step (look : String → Except ScopeError Function) (limit depth : Nat)
    (a : Activation σ) : Stage σ :=
  match move look limit (depth + a.waiting.length + 1) a.store a.top.cursors with
  | .stay b cs => .running ⟨a.placed b cs, a.waiting, b.sink⟩
  | .call b cs function scope site =>
      .running ⟨.ofCall function scope site, a.placed b cs :: a.waiting, b.sink⟩
  | .leave => a.leave
  | .fail e b cs => .failed e (a.placed b cs :: a.waiting) b.sink

/-- So many steps, or fewer if the call is over before. -/
def stepFor (look : String → Except ScopeError Function) (limit depth : Nat) :
    Nat → Activation σ → Stage σ
  | 0, a => .running a
  | n + 1, a =>
      match a.step look limit depth with
      | .running a => stepFor look limit depth n a
      | .returned results sink => .returned results sink
      | .failed e frames sink => .failed e frames sink

end Activation

namespace Machine

/-- The machine with the given frames above its own, and another sink. -/
def withCalls (m : Machine σ) (frames : List CallFrame) (sink : σ) : Machine σ :=
  { m with
    calls := ⟨m.calls.global, frames ++ m.calls.calls, m.calls.depth + frames.length, by
      rw [m.calls.depth_eq, List.length_append, Nat.add_comm]⟩
    sink := sink }

/-- The machine with the frames of an activation above its own. -/
def within (m : Machine σ) (a : Activation σ) : Machine σ :=
  m.withCalls (a.top :: a.waiting) a.sink

/-- The machine to which results have been handed back. -/
def resume (m : Machine σ) (results : List Value) (sink : σ) : Machine σ :=
  m.place ⟨m.calls.current.scope, m.calls.current.stack.extend results, sink⟩
    m.calls.current.cursors

end Machine

/-- The step of a machine that an activation makes within it. -/
def Activation.Stage.apply (m : Machine σ) : Activation.Stage σ → Step σ
  | .running a => .running (m.within a)
  | .returned results sink => .running (m.resume results sink)
  | .failed e frames sink => .failed e (m.withCalls frames sink)

namespace Machine

theorem leaveCall_within (m : Machine σ) (a : Activation σ) :
    Move.apply (m.within a) .leave = a.leave.apply m := by
  rcases a with ⟨top, waiting, sink⟩
  change leaveCall _ top _ = _
  simp only [leaveCall, Activation.leave]
  cases top.stack.popMany? top.function.arity.count with
  | none => rfl
  | some taken =>
      cases waiting with
      | nil => rfl
      | cons caller waiting => rfl

variable [Sink σ]

/-- A machine steps as the activation within it does. -/
theorem step_within (m : Machine σ) (a : Activation σ) :
    (m.within a).step = (a.step m.look m.limit m.calls.depth).apply m := by
  -- Of the machine below, the move sees the functions, the limit and the depth.
  have hmove : (m.within a).step = Move.apply (m.within a)
      (move m.look m.limit (m.calls.depth + a.waiting.length + 1) a.store a.top.cursors) :=
    step_eq (m.within a)
  rw [hmove, Activation.step]
  cases move m.look m.limit (m.calls.depth + a.waiting.length + 1) a.store a.top.cursors with
  | stay b cs => rfl
  | call b cs function scope site => rfl
  | leave => exact leaveCall_within m a
  | fail e b cs => rfl

end Machine

namespace Activation

/-- The activation with the sink mapped. -/
def mapSink (f : σ → τ) (a : Activation σ) : Activation τ := ⟨a.top, a.waiting, f a.sink⟩

/-- The stage with the sink mapped. -/
def Stage.mapSink (f : σ → τ) : Stage σ → Stage τ
  | .running a => .running (a.mapSink f)
  | .returned results sink => .returned results (f sink)
  | .failed e frames sink => .failed e frames (f sink)

variable {f : σ → τ}

theorem leave_mapSink (a : Activation σ) : (a.mapSink f).leave = a.leave.mapSink f := by
  simp only [leave, mapSink]
  cases a.top.stack.popMany? a.top.function.arity.count with
  | none => rfl
  | some taken => cases a.waiting <;> rfl

/-- The step of a mapped activation is the mapped step. -/
theorem step_mapSink [Sink σ] [Sink τ] (hf : Sink.Hom f)
    (look : String → Except ScopeError Function) (limit depth : Nat) (a : Activation σ) :
    (a.mapSink f).step look limit depth = (a.step look limit depth).mapSink f := by
  have hmove : move look limit (depth + (a.mapSink f).waiting.length + 1) (a.mapSink f).store
      (a.mapSink f).top.cursors =
        (move look limit (depth + a.waiting.length + 1) a.store a.top.cursors).mapSink f :=
    move_mapSink hf look limit _ a.store a.top.cursors
  unfold step
  rw [hmove]
  cases move look limit (depth + a.waiting.length + 1) a.store a.top.cursors with
  | stay b cs => rfl
  | call b cs function scope site => rfl
  | leave => exact leave_mapSink a
  | fail e b cs => rfl

end Activation

end StackLang
