import StackLang.Proofs.Scoping
import StackLang.Proofs.Sinks

/-!
# Values underneath

A program that does not run out of values does not notice those underneath.

Values can be put under the global stack of a machine at any point of a run:
`Machine.onto`. Every operation on a stack that finds enough values finds the same ones
with more of them underneath, and leaves these where they are. An operation that does
not find enough fails with an underflow, and might succeed with more. So a step commutes
with putting values underneath unless it fails for that reason, and it may fail for any
other: `Machine.step_onto`. The calls have stacks of their own, which are not touched;
only when the last of them returns does something reach the global stack, and it is put
on top.

## Main definitions

* `Fault.isUnderflow`: A statement has found too few values.
* `Stack.onto`, `Store.onto`, `Move.onto`: A stack, a store and a move with values
  underneath.
* `Store.Unaffected`: An action does the same with values underneath, unless it finds too
  few.
* `Machine.onto`: A machine with values under its global stack.

## Theorems

* `Store.unaffected_perform`, `Store.unaffected_openCall`: Statements and calls are
  unaffected.
* `move_onto`: Moves commute with putting values underneath.
* `Machine.step_onto`, `Machine.runFor_onto`: So do steps and runs.
* `run_append`: A run on a longer initial stack.
-/

namespace StackLang

variable {σ : Type}

/-- Whether a statement has found too few values on the stack. -/
def Fault.isUnderflow : Fault → Bool
  | .stackUnderflow _ _ => true
  | _ => false

namespace Stack

/-- The stack with more values underneath, given from the bottom up. -/
def onto (vs : List Value) (s : Stack) : Stack := ⟨s.topFirst ++ vs.reverse⟩

@[simp]
theorem toList_onto (vs : List Value) (s : Stack) : (s.onto vs).toList = vs ++ s.toList := by
  simp only [onto, toList, List.reverse_append, List.reverse_reverse]

variable {vs : List Value} {s t : Stack}

theorem extend_onto (us : List Value) : (s.onto vs).extend us = (s.extend us).onto vs := by
  rw [← toList_inj]
  simp only [toList_extend, toList_onto, List.append_assoc]

theorem ofList_append (us : List Value) : ofList (vs ++ us) = (ofList us).onto vs := by
  rw [← toList_inj]
  simp only [toList_ofList, toList_onto]

theorem pop?_onto {v : Value} (h : s.pop? = some (v, t)) :
    (s.onto vs).pop? = some (v, t.onto vs) := by
  rw [pop?_eq_some_iff] at h ⊢
  rw [toList_onto, toList_onto, h, List.append_assoc]

theorem popPair?_onto {lhs rhs : Value} (h : s.popPair? = some (lhs, rhs, t)) :
    (s.onto vs).popPair? = some (lhs, rhs, t.onto vs) := by
  rw [popPair?_eq_some_iff] at h ⊢
  rw [toList_onto, toList_onto, h, List.append_assoc]

theorem popMany?_onto {n : Nat} {us : List Value} (h : s.popMany? n = some (us, t)) :
    (s.onto vs).popMany? n = some (us, t.onto vs) := by
  rw [popMany?_eq_some_iff] at h ⊢
  rw [toList_onto, toList_onto, h.2, List.append_assoc]
  exact ⟨h.1, rfl⟩

end Stack

namespace Store

/-- The store with more values underneath. -/
def onto (vs : List Value) (a : Store σ) : Store σ := { a with stack := a.stack.onto vs }

/-- The result is not that there are too few values. -/
def Suffices {α : Type} : EStateM.Result Fault (Store σ) α → Prop
  | .ok _ _ => True
  | .error fault _ => fault.isUnderflow = false

/-- The action does the same with values underneath, unless it finds too few. -/
def Unaffected {α : Type} (x : EStateM Fault (Store σ) α) : Prop :=
  ∀ vs a, Suffices (x a) → x (a.onto vs) = mapState (onto vs) (x a)

theorem unaffected_pop : Unaffected (pop : EStateM Fault (Store σ) Value) := by
  intro vs a h
  cases hpop : a.stack.pop? with
  | none =>
      simp only [pop, hpop] at h
      cases h
  | some top => simp only [pop, onto, Stack.pop?_onto hpop, hpop, mapState]

theorem unaffected_popBool : Unaffected (popBool : EStateM Fault (Store σ) Bool) := by
  intro vs a h
  cases hpop : a.stack.pop? with
  | none =>
      simp only [popBool, hpop] at h
      cases h
  | some top =>
      simp only [popBool, onto, Stack.pop?_onto hpop, hpop]
      cases top.1.asBool? <;> rfl

theorem unaffected_onScope (change : Scope → Except ScopeError Scope) :
    Unaffected (onScope change : EStateM Fault (Store σ) Unit) := by
  intro vs a _
  simp only [onScope, onto]
  cases change a.scope <;> rfl

theorem unaffected_operate (op : Operator) :
    Unaffected (operate op : EStateM Fault (Store σ) Unit) := by
  intro vs a h
  cases hpop : a.stack.popPair? with
  | none =>
      simp only [operate, hpop] at h
      cases h
  | some top =>
      simp only [operate, onto, Stack.popPair?_onto hpop, hpop]
      cases op.apply top.1 top.2.1 <;> rfl

theorem unaffected_load (x : String) :
    Unaffected (load x : EStateM Fault (Store σ) Unit) := by
  intro vs a _
  simp only [load, onto]
  cases a.scope.value x <;> rfl

/-- The value is popped from above the others, and it is stored as before. -/
theorem unaffected_save (x : String) : Unaffected (save x : EStateM Fault (Store σ) Unit) := by
  intro vs a h
  have hpop := unaffected_pop vs a
  simp only [save] at h ⊢
  cases hp : pop a with
  | error fault b =>
      rw [hp] at h hpop
      rw [hpop h]
      rfl
  | ok v b =>
      rw [hp] at h hpop
      rw [hpop trivial]
      exact unaffected_onScope (fun s => s.assign x v) vs b h

/-- The sink is handed the same value. -/
theorem unaffected_print [Sink σ] (loc : Location) :
    Unaffected (print loc : EStateM Fault (Store σ) Unit) := by
  intro vs a h
  have hpop := unaffected_pop vs a
  simp only [print] at h ⊢
  cases hp : pop a with
  | error fault b =>
      rw [hp] at h hpop
      rw [hpop h]
      rfl
  | ok v b =>
      rw [hp] at hpop
      rw [hpop trivial]
      simp only [mapState, onto]
      cases Sink.emit ⟨v, loc⟩ b.sink <;> rfl

theorem unaffected_perform [Sink σ] (s : Stmt) :
    Unaffected (perform s : EStateM Fault (Store σ) Unit) := by
  cases s with
  | operator op loc => exact unaffected_operate op
  | declare x loc => exact unaffected_onScope fun s => s.allocate x
  | read x loc => exact unaffected_load x
  | assign x loc => exact unaffected_save x
  | print loc => exact unaffected_print loc
  | literal | ifThen | ifElse | loop | function | call => exact fun vs a _ => rfl

theorem unaffected_openCall (look : String → Except ScopeError Function) (limit depth : Nat)
    (name : String) :
    Unaffected (openCall look limit depth name : EStateM Fault (Store σ) _) := by
  intro vs a h
  simp only [openCall] at h ⊢
  cases hlook : look name with
  | error e => rfl
  | ok function =>
      by_cases hlimit : limit ≤ depth
      · simp only [hlimit, if_true]
        rfl
      · simp only [hlook, hlimit, if_false] at h ⊢
        cases hpop : a.stack.popMany? function.parameters.length with
        | none =>
            rw [hpop] at h
            cases h
        | some taken =>
            simp only [onto, Stack.popMany?_onto hpop]
            cases callScope function taken.1 <;> rfl

end Store

namespace Move

/-- The move with values underneath. -/
def onto (vs : List Value) : Move σ → Move σ
  | .stay a cs => .stay (a.onto vs) cs
  | .call a cs function scope site => .call (a.onto vs) cs function scope site
  | .leave => .leave
  | .fail e a cs => .fail e (a.onto vs) cs

/-- The move is no failure for lack of values. -/
def Suffices : Move σ → Prop
  | .fail e _ _ => e.fault.isUnderflow = false
  | _ => True

theorem of_onto {α : Type} {x : EStateM Fault (Store σ) α} (hx : Store.Unaffected x)
    {loc : Location} {next : α → List Cursor} {kept : List Cursor} {a : Store σ}
    (h : (Move.of loc next kept (x a)).Suffices) (vs : List Value) :
    Move.of loc next kept (x (a.onto vs)) = (Move.of loc next kept (x a)).onto vs := by
  cases hr : x a with
  | ok v b =>
      rw [hx vs a (by rw [hr]; trivial), hr]
      rfl
  | error fault b =>
      rw [hr] at h
      rw [hx vs a (by rw [hr]; exact h), hr]
      rfl

end Move

section Moves

variable {look : String → Except ScopeError Function} {limit depth : Nat} {a : Store σ}
  {cs : List Cursor}

theorem moveEnd_onto {role : Role} (h : (moveEnd role a cs).Suffices) (vs : List Value) :
    moveEnd role (a.onto vs) cs = (moveEnd role a cs).onto vs := by
  cases role with
  | sequence => rfl
  | condition loop => exact Move.of_onto Store.unaffected_popBool h vs
  | body loop => rfl

variable [Sink σ]

theorem moveStmt_onto {s : Stmt} (h : (moveStmt look limit depth s a cs).Suffices)
    (vs : List Value) :
    moveStmt look limit depth s (a.onto vs) cs = (moveStmt look limit depth s a cs).onto vs := by
  cases s with
  | ifThen block loc => exact Move.of_onto Store.unaffected_popBool h vs
  | ifElse block other loc => exact Move.of_onto Store.unaffected_popBool h vs
  | literal | loop | function => rfl
  | call name site =>
      have hopen := Store.unaffected_openCall look limit depth name vs a
      simp only [moveStmt] at h ⊢
      cases hr : Store.openCall look limit depth name a with
      | ok started b =>
          rw [hopen (by rw [hr]; trivial), hr]
          rfl
      | error fault b =>
          rw [hr] at h
          rw [hopen (by rw [hr]; exact h), hr]
          rfl
  | operator op loc => exact Move.of_onto (Store.unaffected_perform (.operator op loc)) h vs
  | declare x loc => exact Move.of_onto (Store.unaffected_perform (.declare x loc)) h vs
  | read x loc => exact Move.of_onto (Store.unaffected_perform (.read x loc)) h vs
  | assign x loc => exact Move.of_onto (Store.unaffected_perform (.assign x loc)) h vs
  | print loc => exact Move.of_onto (Store.unaffected_perform (.print loc)) h vs

/-- The move with values underneath, unless there are too few. -/
theorem move_onto (h : (move look limit depth a cs).Suffices) (vs : List Value) :
    move look limit depth (a.onto vs) cs = (move look limit depth a cs).onto vs := by
  rcases cs with _ | ⟨⟨_ | ⟨s, rest⟩, role⟩, cs⟩
  · rfl
  · exact moveEnd_onto h vs
  · exact moveStmt_onto h vs

end Moves

/-- The frame with more values under its stack. -/
def Frame.onto (vs : List Value) (f : Frame) : Frame := { f with stack := f.stack.onto vs }

namespace Machine

/-- The machine with more values under its global stack. -/
def onto (vs : List Value) (m : Machine σ) : Machine σ :=
  { m with calls := { m.calls with global := m.calls.global.onto vs } }

theorem globalStack_onto (vs : List Value) (m : Machine σ) :
    (m.onto vs).globalStack = vs ++ m.globalStack :=
  Stack.toList_onto vs m.calls.global.stack

end Machine

namespace Step

/-- The step with more values under the global stack. -/
def onto (vs : List Value) : Step σ → Step σ
  | .running m => .running (m.onto vs)
  | .finished m => .finished (m.onto vs)
  | .failed e m => .failed e (m.onto vs)

/-- The step does not fail for lack of values. -/
def Suffices : Step σ → Prop
  | .failed e _ => e.fault.isUnderflow = false
  | _ => True

end Step

namespace Machine

variable {m : Machine σ}

/-- Outside of calls a move happens right above the values. -/
theorem apply_onto_of_nil (h : m.calls.calls = []) (mv : Move σ) (vs : List Value) :
    (mv.onto vs).apply (m.onto vs) = (mv.apply m).onto vs := by
  rcases m with ⟨p, limit, ⟨global, calls, depth, hdepth⟩, sink⟩
  cases h
  cases mv <;> rfl

/-- In a call a move does not reach the values, and at the end of a call the results are
    put on top of them. -/
theorem apply_onto_of_cons {call : CallFrame} {outer : List CallFrame}
    (h : m.calls.calls = call :: outer) (mv : Move σ) (vs : List Value) :
    mv.apply (m.onto vs) = (mv.apply m).onto vs := by
  rcases m with ⟨p, limit, ⟨global, calls, depth, hdepth⟩, sink⟩
  cases h
  cases mv with
  | stay a cs => rfl
  | call a cs function scope site => rfl
  | leave =>
      simp only [Move.apply, onto, CallStack.pop?, leaveCall]
      cases call.stack.popMany? call.function.arity.count with
      | none => rfl
      | some taken =>
          cases outer with
          | nil =>
              -- The last call returns, so the results are put on the global stack.
              simp only [Step.onto, onto, setStack, CallStack.setCurrent, CallStack.current,
                Frame.onto, Stack.extend_onto]
          | cons caller outer => rfl
  | fail e a cs => rfl

theorem suffices_of_apply {mv : Move σ} (h : (mv.apply m).Suffices) : mv.Suffices := by
  cases mv with
  | stay a cs => trivial
  | call a cs function scope site => trivial
  | leave => trivial
  | fail e a cs => exact h

variable [Sink σ]

/-- A step that does not fail for lack of values is the same with more of them under the
    global stack. -/
theorem step_onto (h : m.step.Suffices) (vs : List Value) :
    (m.onto vs).step = m.step.onto vs := by
  rw [step_eq] at h ⊢
  rw [step_eq]
  cases hcalls : m.calls.calls with
  | nil =>
      -- The current frame is the global one, so its store has the values underneath.
      have hstore : (m.onto vs).store = m.store.onto vs := by
        simp only [store, CallStack.current, onto, hcalls]
        rfl
      have hcursors : (m.onto vs).calls.current.cursors = m.calls.current.cursors := by
        simp only [CallStack.current, onto, hcalls]
        rfl
      rw [hstore, hcursors, ← apply_onto_of_nil hcalls, ← move_onto (suffices_of_apply h)]
      rfl
  | cons call outer =>
      -- The current frame is that of a call, which is left as it is.
      have hcurrent : (m.onto vs).calls.current = m.calls.current := by
        simp only [CallStack.current, onto, hcalls]
      rw [← apply_onto_of_cons hcalls, store, store, hcurrent]
      rfl

/-- A run that does not end for lack of values is the same with more of them under the
    global stack. -/
theorem runFor_onto {m' : Machine σ} {n : Nat} {result : Except RuntimeError Unit}
    (h : runFor n m = some (result, m'))
    (hresult : ∀ e, result = .error e → e.fault.isUnderflow = false) (vs : List Value) :
    runFor n (m.onto vs) = some (result, m'.onto vs) := by
  induction n generalizing m with
  | zero => cases h
  | succ n ih =>
      simp only [runFor] at h ⊢
      cases hs : m.step with
      | running m₁ =>
          rw [hs] at h
          rw [step_onto (by rw [hs]; trivial), hs]
          exact ih h
      | finished m₁ =>
          rw [hs] at h
          cases h
          rw [step_onto (by rw [hs]; trivial), hs]
          rfl
      | failed e m₁ =>
          -- The error is that of the run, so it is not for lack of values.
          rw [hs] at h
          cases h
          rw [step_onto (by rw [hs]; exact hresult e rfl), hs]
          rfl

omit [Sink σ] in
theorem loaded_append (m : Machine σ) (scope : Scope) (below initial : List Integer) :
    m.loaded scope (below ++ initial) = (m.loaded scope initial).onto (below.map .int) := by
  simp only [loaded, List.map_append, Stack.ofList_append]
  rfl

/-- A run from the start, on a longer initial stack. -/
theorem run_onto {m' : Machine σ} {scope : Scope} (hscope : globalScope m.program = .ok scope)
    {fuel : Nat} {initial : List Integer} {result : Except RuntimeError (List Value)}
    (h : m.run fuel initial = some (result, m'))
    (hresult : ∀ e, result = .error e → e.fault.isUnderflow = false) (below : List Integer) :
    m.run fuel (below ++ initial) =
      some (result.map (below.map .int ++ ·), m'.onto (below.map .int)) := by
  rcases (run_eq_some_iff (load_eq hscope initial)).1 h with ⟨ended, hrun, rfl⟩
  have hended : ∀ e, ended = .error e → e.fault.isUnderflow = false := by
    intro e he
    exact hresult e (by rw [he]; rfl)
  refine (run_eq_some_iff (load_eq hscope (below ++ initial))).2 ⟨ended, ?_, ?_⟩
  · rw [loaded_append]
    exact runFor_onto hrun hended _
  · rw [globalStack_onto]
    cases ended <;> rfl

end Machine

/-- Values below what a program uses are never touched. Let the functions and global
    variables of a program be such that they can be bound, as those of every compiled program
    are. If a run succeeds, then with more values at the bottom of its initial stack it
    succeeds as well, with these values at the bottom of the final stack. If it fails, and not
    for lack of values, then with more values it fails with the same error and leaves a global
    stack with these values at its bottom. In both cases the sink is left the same, so the same
    lines have been printed. -/
theorem run_append :
    (∀ source p, compile source = .ok p → ∃ scope, globalScope p = .ok scope) ∧
    ∀ (σ : Type) [Sink σ] (m : Machine σ) (scope : Scope), globalScope m.program = .ok scope →
      ∀ (below initial : List Integer) (fuel : Nat),
        (∀ values m', m.run fuel initial = some (.ok values, m') → ∃ last,
          m.run fuel (below ++ initial) = some (.ok (below.map .int ++ values), last) ∧
            last.sink = m'.sink) ∧
        ∀ e m', m.run fuel initial = some (.error e, m') →
          (∀ needed available, e.fault ≠ .stackUnderflow needed available) → ∃ last,
            m.run fuel (below ++ initial) = some (.error e, last) ∧ last.sink = m'.sink ∧
              last.globalStack = below.map .int ++ m'.globalStack := by
  refine ⟨fun source p hp => (resolved_of_compile hp).exists_globalScope, ?_⟩
  intro σ _ m scope hscope below initial fuel
  constructor
  · intro values m' hrun
    exact ⟨_, Machine.run_onto hscope hrun nofun below, rfl⟩
  · intro e m' hrun he
    have hfault : e.fault.isUnderflow = false := by
      cases hf : e.fault with
      | stackUnderflow needed available => exact absurd hf (he needed available)
      | _ => rfl
    have honto := Machine.run_onto hscope hrun (fun e' he' => by cases he'; exact hfault) below
    exact ⟨_, honto, rfl, Machine.globalStack_onto _ m'⟩

/-- A program that divides the upper by the lower of two numbers, in a function that leaves a
    value of its own behind, and prints the result. -/
def quotientProgram : Program :=
  ⟨[.function ⟨"OVER", ["a", "b"], [], .one, ⟨1, 1⟩⟩ [.literal (.bool true) ⟨2, 1⟩,
      .read "b" ⟨2, 6⟩, .read "a" ⟨2, 8⟩, .operator .div ⟨2, 10⟩],
    .call "OVER" ⟨4, 1⟩, .literal (.int 0) ⟨5, 1⟩, .operator .add ⟨5, 3⟩, .print ⟨5, 5⟩], []⟩

theorem run_append_quotientProgram :
    ∃ (scope : Scope) (last last' : Machine Transcript), globalScope quotientProgram = .ok scope ∧
      (Machine.idle quotientProgram 1 Transcript.empty).run 20 ([8, 9] ++ [1, 2, 6]) =
        some (.ok ([.int 8, .int 9] ++ [.int 1]), last) ∧
      last.sink.toList = [⟨.int 3, ⟨5, 5⟩⟩] ∧
      (Machine.idle quotientProgram 1 Transcript.empty).run 20 ([8, 9] ++ [1, 0, 6]) =
        some (.error ⟨.divisionByZero, ⟨2, 10⟩⟩, last') ∧
      last'.globalStack = [.int 8, .int 9] ++ [.int 1] := by
  have hscope : ∃ scope, globalScope quotientProgram = .ok scope := ⟨_, rfl⟩
  rcases hscope with ⟨scope, hscope⟩
  rcases (run_append.2 Transcript (.idle quotientProgram 1 .empty) scope hscope [8, 9] [1, 2, 6]
    20).1 [.int 1] _ rfl with ⟨last, hrun, hsink⟩
  rcases (run_append.2 Transcript (.idle quotientProgram 1 .empty) scope hscope [8, 9] [1, 0, 6]
    20).2 ⟨.divisionByZero, ⟨2, 10⟩⟩ _ rfl nofun with ⟨last', hrun', _, hstack⟩
  exact ⟨scope, last, last', hscope, hrun, by rw [hsink]; rfl, hrun', hstack⟩

end StackLang
