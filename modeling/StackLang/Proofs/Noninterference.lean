import StackLang.Proofs.Activation
import StackLang.Proofs.Bindings

/-!
# Noninterference of calls

What a call does depends on its arguments and on nothing else that a program can
change.

A call is watched from the step that makes it. After any number of steps it is
still active, has returned to the depth at which it was made, or has failed:
`Machine.callAfter`. What can be told of it from outside is a `CallReport`: the
values it has handed back or the error it has failed with, and the lines it has
printed so far. A report does not mention the values below the arguments, and
the lines printed before the call; a state shows a report when these come first
and are followed by what the report says.

The report of a call is computed by `callReport` from the functions that can be
called, the limit, the depth and the arguments: first the arguments are made into
a scope, then an activation runs by itself. `shows_callReport` says that the
machine shows this report, whatever its frames, variables and transcript are. Two
calls with the same arguments thus show the same report, which is
`noninterference`.

## Main definitions

* `CallStatus`: How a call stands.
* `Machine.callAfter`: How the call that is made next stands after so many steps.
* `CallReport`: What can be told of a call from outside.
* `CallStatus.Shows`: A report is the one of this call.
* `opening`: What a call makes of its arguments.
* `callReport`: The report of a call by itself.

## Theorems

* `Machine.shows_within`: A machine shows the report of the activation within it.
* `Machine.step_of_call`: The step that makes a call.
* `Machine.shows_callReport`: A machine shows the report of the call that it makes.
* `noninterference`: Two calls with the same arguments show the same report.
-/

namespace StackLang

variable {σ : Type}

/-- How a call stands, in the state that is given. -/
inductive CallStatus (σ : Type) where
  | active (m : Machine σ)
  /-- The first state after the call. -/
  | returned (m : Machine σ)
  | failed (e : RuntimeError) (m : Machine σ)

namespace Machine

/-- How a call made at the given depth stands after `n` more steps: it is over as soon as
    no more calls are active than when it was made. -/
def watch [Sink σ] (depth : Nat) : Nat → Machine σ → CallStatus σ
  | 0, m => .active m
  | n + 1, m =>
      match m.step with
      | .running m' => if m'.calls.depth ≤ depth then .returned m' else watch depth n m'
      | .finished m' => .returned m'
      | .failed e m' => .failed e m'

/-- How the call that is made next stands after `n` steps. -/
def callAfter [Sink σ] (n : Nat) (m : Machine σ) : CallStatus σ := watch m.calls.depth n m

end Machine

/-- What can be told of a call from outside: whether it is over and how, and the lines it
    has printed. -/
inductive CallReport where
  | active (lines : List Printed)
  | returned (results : List Value) (lines : List Printed)
  | failed (e : RuntimeError) (lines : List Printed)
deriving DecidableEq

/-- The report is that of a call which found the values `below` under its arguments and the
    lines `before` in the transcript. -/
def CallStatus.Shows (below : List Value) (before : List Printed) :
    CallStatus Transcript → CallReport → Prop
  | .active m, .active lines => m.sink.toList = before ++ lines
  | .returned m, .returned results lines =>
      m.calls.current.stack.toList = below ++ results ∧ m.sink.toList = before ++ lines
  | .failed e m, .failed e' lines => e = e' ∧ m.sink.toList = before ++ lines
  | _, _ => False

/-- The report of an activation that has started with an empty transcript. -/
def Activation.Stage.report : Activation.Stage Transcript → CallReport
  | .running a => .active a.sink.toList
  | .returned results sink => .returned results sink.toList
  | .failed e _ sink => .failed e sink.toList

/-- What a call makes of its arguments: the function and the scope it starts with. -/
def opening (look : String → Except ScopeError Function) (limit depth : Nat) (name : String)
    (arguments : List Value) : Except Fault (Function × Scope) :=
  match look name with
  | .error e => .error e.fault
  | .ok function =>
      if limit ≤ depth then .error (.recursionLimit name limit)
      else
        match callScope function arguments with
        | .error e => .error e.fault
        | .ok scope => .ok (function, scope)

/-- The report of a call by itself after `n` steps, the first of which makes the call. -/
def callReport (look : String → Except ScopeError Function) (limit depth : Nat) (name : String)
    (site : Location) (arguments : List Value) : Nat → CallReport
  | 0 => .active []
  | n + 1 =>
      match opening look limit depth name arguments with
      | .error fault => .failed ⟨fault, site⟩ []
      | .ok (function, scope) =>
          ((Activation.ofCall function scope site Transcript.empty).stepFor look limit depth
            n).report

theorem openCall_of_arguments {look : String → Except ScopeError Function} {name : String}
    {a : Store σ} {below arguments : List Value} (limit depth : Nat)
    (hstack : a.stack.toList = below ++ arguments)
    (hcount : ∀ f, look name = .ok f → f.parameters.length = arguments.length) :
    match opening look limit depth name arguments with
    | .ok started =>
        Store.openCall look limit depth name a = .ok started { a with stack := .ofList below }
    | .error fault =>
        ∃ b, Store.openCall look limit depth name a = .error fault b ∧ b.sink = a.sink := by
  unfold opening Store.openCall
  cases hlook : look name with
  | error e => exact ⟨a, rfl, rfl⟩
  | ok function =>
      by_cases hlimit : limit ≤ depth
      · simp only [hlimit, if_true]
        exact ⟨a, rfl, rfl⟩
      · -- There are enough values, and those taken are the arguments.
        have hpop : a.stack.popMany? function.parameters.length =
            some (arguments, .ofList below) := by
          rw [Stack.popMany?_eq_some_iff, Stack.toList_ofList]
          exact ⟨(hcount function hlook).symm, hstack⟩
        simp only [hlimit, if_false, hpop]
        cases callScope function arguments with
        | error e => exact ⟨_, rfl, rfl⟩
        | ok scope => rfl

namespace Machine

/-- A machine shows the report of the activation within it. -/
theorem shows_within (m : Machine Transcript) (t : Transcript) (n : Nat)
    (a : Activation Transcript) :
    (watch m.calls.depth n (m.within (a.mapSink t.after))).Shows m.calls.current.stack.toList
      t.toList (a.stepFor m.look m.limit m.calls.depth n).report := by
  -- One step of the machine is one step of the activation, and as long as the activation
  -- goes on there is a call more than at the start.
  induction n generalizing a with
  | zero => exact Transcript.toList_after t a.sink
  | succ n ih =>
      rw [watch, step_within, Activation.step_mapSink t.hom_after, Activation.stepFor]
      cases a.step m.look m.limit m.calls.depth with
      | running b =>
          have hdepth : ¬ (m.within (b.mapSink t.after)).calls.depth ≤ m.calls.depth := by
            simp only [within, withCalls, List.length_cons]
            omega
          simp only [Activation.Stage.mapSink, Activation.Stage.apply, hdepth, if_false]
          exact ih b
      | returned results sink =>
          have hdepth : (m.resume results (t.after sink)).calls.depth ≤ m.calls.depth :=
            Nat.le_of_eq (depth_place _ _ _)
          simp only [Activation.Stage.mapSink, Activation.Stage.apply, hdepth, if_true]
          refine ⟨?_, Transcript.toList_after t sink⟩
          rw [resume, current_place, Stack.toList_extend]
      | failed e frames sink => exact ⟨rfl, Transcript.toList_after t sink⟩

/-- The step that makes a call: it fails for a reason that its arguments give, or it starts
    the activation that they give. -/
theorem step_of_call [Sink σ] {m : Machine σ} {name : String} {site : Location}
    (hnext : m.next? = some (.call name site)) {below arguments : List Value}
    (hstack : m.calls.current.stack.toList = below ++ arguments)
    (hcount : ∀ f, m.look name = .ok f → f.parameters.length = arguments.length) :
    match opening m.look m.limit m.calls.depth name arguments with
    | .ok (function, scope) =>
        ∃ caller : Machine σ, caller.look = m.look ∧ caller.limit = m.limit ∧
          caller.calls.depth = m.calls.depth ∧ caller.calls.current.stack.toList = below ∧
          m.step = .running (caller.within (.ofCall function scope site m.sink))
    | .error fault => ∃ m', m.step = .failed ⟨fault, site⟩ m' ∧ m'.sink = m.sink := by
  rcases exists_step_of_next? m hnext with ⟨cs, hstep⟩
  have hopen := openCall_of_arguments (a := m.store) m.limit m.calls.depth hstack hcount
  rw [hstep, moveStmt]
  cases hopening : opening m.look m.limit m.calls.depth name arguments with
  | error fault =>
      rw [hopening] at hopen
      rcases hopen with ⟨b, hb, hsink⟩
      rw [hb]
      exact ⟨_, rfl, hsink⟩
  | ok started =>
      rw [hopening] at hopen
      rw [hopen]
      refine ⟨m.place { m.store with stack := .ofList below } cs, ?_, rfl, depth_place _ _ _, ?_,
        rfl⟩
      · exact look_place_of_grows cs (Scope.Grows.refl _)
      · rw [current_place, Stack.toList_ofList]

/-- A machine shows the report of the call that it makes. -/
theorem shows_callReport {m : Machine Transcript} {name : String} {site : Location}
    (hnext : m.next? = some (.call name site)) {below arguments : List Value}
    (hstack : m.calls.current.stack.toList = below ++ arguments)
    (hcount : ∀ f, m.look name = .ok f → f.parameters.length = arguments.length) (n : Nat) :
    (m.callAfter n).Shows below m.sink.toList
      (callReport m.look m.limit m.calls.depth name site arguments n) := by
  cases n with
  | zero => exact (List.append_nil _).symm
  | succ n =>
      have hcall := step_of_call hnext hstack hcount
      rw [callAfter, watch, callReport]
      cases hopening : opening m.look m.limit m.calls.depth name arguments with
      | error fault =>
          rw [hopening] at hcall
          rcases hcall with ⟨m', hstep, hsink⟩
          rw [hstep]
          exact ⟨rfl, by rw [hsink, List.append_nil]⟩
      | ok started =>
          rcases started with ⟨function, scope⟩
          rw [hopening] at hcall
          rcases hcall with ⟨caller, hlook, hlimit, hdepth, hbelow, hstep⟩
          -- The activation starts above the caller, with an empty transcript that comes
          -- after the one there is.
          have hshows := shows_within caller m.sink n (.ofCall function scope site .empty)
          have hdeeper : ¬ (caller.within (.ofCall function scope site m.sink)).calls.depth ≤
              m.calls.depth := by
            simp only [within, withCalls, List.length_cons]
            omega
          rw [hlook, hlimit, hdepth, hbelow] at hshows
          simp only [hstep, hdeeper, if_false]
          exact hshows

end Machine

/-- Two states that occur in runs of a program under the same limit, of one run or of two,
    and that are about to make the same call at the same depth with the same arguments: after
    every number of steps the two calls show the same report. So both are active, or both
    have returned with the same results, or both have failed with the same error, and they
    have printed the same lines. -/
theorem noninterference {p : Program} {limit : Nat} {m₁ m₂ : Machine Transcript}
    (h₁ : m₁.InRunOf p limit) (h₂ : m₂.InRunOf p limit) {name : String} {site : Location}
    (hnext₁ : m₁.next? = some (.call name site)) (hnext₂ : m₂.next? = some (.call name site))
    (hdepth : m₁.calls.depth = m₂.calls.depth) {below₁ below₂ arguments : List Value}
    (hstack₁ : m₁.calls.current.stack.toList = below₁ ++ arguments)
    (hstack₂ : m₂.calls.current.stack.toList = below₂ ++ arguments)
    (hcount : ∀ f, p.look name = .ok f → f.parameters.length = arguments.length) (n : Nat) :
    ∃ report, (m₁.callAfter n).Shows below₁ m₁.sink.toList report ∧
      (m₂.callAfter n).Shows below₂ m₂.sink.toList report := by
  have hshows₁ := Machine.shows_callReport hnext₁ hstack₁ (by rwa [h₁.look_eq]) n
  have hshows₂ := Machine.shows_callReport hnext₂ hstack₂ (by rwa [h₂.look_eq]) n
  rw [h₁.look_eq, h₁.limit_eq, hdepth] at hshows₁
  rw [h₂.look_eq, h₂.limit_eq] at hshows₂
  exact ⟨_, hshows₁, hshows₂⟩

/-- A function that prints its argument and hands back the square. -/
def squaring : Function :=
  ⟨⟨"SQUARE", ["n"], [], .one, ⟨1, 1⟩⟩, [.read "n" ⟨2, 1⟩, .print ⟨2, 3⟩, .read "n" ⟨2, 13⟩,
    .read "n" ⟨2, 15⟩, .operator .mul ⟨2, 17⟩]⟩

/-- A program that squares the same number in two rounds of a loop, and leaves the results
    on the stack. -/
def squaringLoop : Program :=
  ⟨[.function squaring.toSignature squaring.body, .declare "k" ⟨4, 1⟩,
    .loop [.read "k" ⟨5, 7⟩, .literal (.int 2) ⟨5, 9⟩, .operator .lt ⟨5, 11⟩]
      [.read "k" ⟨6, 1⟩, .literal (.int 3) ⟨6, 3⟩, .call "SQUARE" ⟨6, 5⟩, .read "k" ⟨7, 1⟩,
        .literal (.int 1) ⟨7, 3⟩, .operator .add ⟨7, 5⟩, .assign "k" ⟨7, 7⟩] ⟨5, 1⟩], ["k"]⟩

/-- In the second round there are more values below the argument, another value in the
    variable, and a line in the transcript. -/
theorem noninterference_squaringLoop :
    ∃ m₁ m₂ : Machine Transcript, m₁.InRunOf squaringLoop 1 ∧ m₂.InRunOf squaringLoop 1 ∧
      m₁.next? = some (.call "SQUARE" ⟨6, 5⟩) ∧ m₂.next? = some (.call "SQUARE" ⟨6, 5⟩) ∧
      m₁.calls.current.stack.toList = [.int 5, .int 0] ++ [.int 3] ∧
      m₂.calls.current.stack.toList = [.int 5, .int 0, .int 9, .int 1] ++ [.int 3] ∧
      ∀ n, ∃ report, (m₁.callAfter n).Shows [.int 5, .int 0] [] report ∧
        (m₂.callAfter n).Shows [.int 5, .int 0, .int 9, .int 1] [⟨.int 3, ⟨2, 3⟩⟩] report := by
  have h₁ : Machine.InRunOf _ squaringLoop 1 :=
    ⟨.idle squaringLoop 1 Transcript.empty, _, [5], rfl, rfl, rfl, 9, rfl⟩
  have h₂ : Machine.InRunOf _ squaringLoop 1 :=
    ⟨.idle squaringLoop 1 Transcript.empty, _, [5], rfl, rfl, rfl, 28, rfl⟩
  have hcount : ∀ f, squaringLoop.look "SQUARE" = .ok f →
      f.parameters.length = [Value.int 3].length := by
    intro f hf
    cases hf
    rfl
  exact ⟨_, _, h₁, h₂, rfl, rfl, rfl, rfl, fun n =>
    noninterference h₁ h₂ rfl rfl rfl rfl rfl hcount n⟩

end StackLang
