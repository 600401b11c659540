import StackLang.Proofs.Erasure
import StackLang.Proofs.Move
import StackLang.Proofs.Trace

/-!
# Runs without locations

Running a program pays no attention to places either.

A machine has locations in its statements, in the functions it has bound, in its cursors
and calls and in its transcript, and `Machine.erase` removes them all. What a statement
does depends on none of them: a location is only handed on, to an error or to the
transcript. So a step of an erased machine is the erased step, and runs go on in lockstep.

Together with the same fact about reading, that settles what the layout of a text can do:
texts of the same words have the same outcome, after the same number of steps, up to the
locations in an error: `runSource_of_spells`.

## Main definitions

* `Scope.erase`, `Store.erase`, `Move.erase`: Scopes, stores and moves without locations.
* `Store.Erases`: An action on a store commutes with erasure.
* `Machine.erase`: A machine without locations.

## Theorems

* `Scope.declare_erase`, `Scope.allocate_erase`, `Scope.assign_erase`: Operations on
  scopes commute with erasure.
* `globalScope_erase`: So do the bindings at the start of a run.
* `Store.erases_perform`, `Store.erases_openCall`: So do statements and calls.
* `move_erase`, `Machine.step_erase`, `Machine.run_erase`: So do moves, steps and runs.
* `runSource_of_spells`: The layout of a text does not matter.
-/

namespace StackLang

/-- The transcript without locations. -/
def Transcript.erase (t : Transcript) : Transcript :=
  ⟨t.latestFirst.map fun p => ⟨p.value, .start⟩⟩

theorem Transcript.values_erase (t : Transcript) : t.erase.values = t.values := by
  simp only [values, toList, erase, ← List.map_reverse, List.map_map]
  rfl

/-- The binding with its function erased. A cell has no location. -/
def Binding.erase : Binding → Binding
  | .cell v => .cell v
  | .function f => .function f.erase

namespace Scope

/-- The scope with its functions erased. -/
def erase (s : Scope) : Scope := ⟨s.entries.map (Prod.map id Binding.erase)⟩

variable (s : Scope) (x : String)

theorem find?_erase : s.erase.find? x = (s.find? x).map Binding.erase := by
  rcases s with ⟨es⟩
  simp only [find?, erase]
  induction es with
  | nil => rfl
  | cons e es ih =>
      rcases e with ⟨y, b⟩
      simp only [List.map_cons, Prod.map_apply, id_eq, List.lookup_cons, ih]
      cases x == y <;> rfl

theorem put_erase (v : Value) : s.erase.put x v = (s.put x v).erase := by
  rcases s with ⟨es⟩
  simp only [put, erase, Scope.mk.injEq]
  induction es with
  | nil => rfl
  | cons e es ih =>
      rcases e with ⟨y, b⟩
      simp only [List.map_cons, Prod.map_apply, id_eq, replace]
      split
      · rfl
      · rw [ih, List.map_cons]
        rfl

theorem declare_erase (b : Binding) :
    s.erase.declare x b.erase = (s.declare x b).map erase := by
  unfold declare
  rw [find?_erase]
  cases s.find? x with
  | some b' => rfl
  | none => simp only [erase, Option.map_none, Except.map, List.map_append, List.map_cons,
      List.map_nil, Prod.map_apply, id_eq]

theorem allocate_erase : s.erase.allocate x = (s.allocate x).map erase := by
  unfold allocate
  rw [find?_erase]
  cases s.find? x with
  | none => exact s.declare_erase x (.cell .zero)
  | some b =>
      -- A function is not replaced, with or without its locations.
      cases b with
      | cell v => exact congrArg Except.ok (s.put_erase x .zero)
      | function f => rfl

theorem assign_erase (v : Value) : s.erase.assign x v = (s.assign x v).map erase := by
  unfold assign
  rw [find?_erase]
  rcases s.find? x with _ | ⟨w⟩ | f
  · rfl
  · exact congrArg Except.ok (s.put_erase x v)
  · rfl

theorem value_erase : s.erase.value x = s.value x := by
  unfold value
  rw [find?_erase]
  rcases s.find? x with _ | ⟨w⟩ | f <;> rfl

theorem function_erase : s.erase.function x = (s.function x).map Function.erase := by
  unfold function
  rw [find?_erase]
  rcases s.find? x with _ | ⟨w⟩ | f <;> rfl

end Scope

section Bindings

variable {ε α β : Type} {φ : ε → ε}

theorem bind_erase {r r' : Except ε Scope} {f g : Scope → Except ε Scope}
    (hr : r' = (r.map Scope.erase).mapError φ)
    (h : ∀ s, g s.erase = ((f s).map Scope.erase).mapError φ) :
    (r' >>= g) = ((r >>= f).map Scope.erase).mapError φ := by
  subst hr
  cases r with
  | error e => rfl
  | ok s => exact h s

/-- Bindings made one after another commute with erasure if each of them does. -/
theorem foldlM_erase {k : α → β} {f : Scope → α → Except ε Scope}
    {g : Scope → β → Except ε Scope}
    (h : ∀ s x, g s.erase (k x) = ((f s x).map Scope.erase).mapError φ) {xs : List α}
    {ys : List β} (hys : ys = xs.map k) (s : Scope) :
    ys.foldlM g s.erase = ((xs.foldlM f s).map Scope.erase).mapError φ := by
  subst hys
  induction xs generalizing s with
  | nil => rfl
  | cons x xs ih =>
      rw [List.map_cons, List.foldlM_cons, List.foldlM_cons]
      exact bind_erase (h s x) ih

theorem mapError_id (r : Except ε α) : r.mapError id = r := by
  cases r <;> rfl

/-- The location of a refusal is erased with it. -/
theorem blame_erase {r r' : Except ScopeError Scope} (h : r' = r.map Scope.erase)
    (loc : Location) :
    (r'.mapError fun e => (⟨e.fault, .start⟩ : RuntimeError)) =
      ((r.mapError fun e => ⟨e.fault, loc⟩).map Scope.erase).mapError RuntimeError.erase := by
  subst h
  cases r <;> rfl

end Bindings

/-- The scope of a call of an erased function is the erased scope. -/
theorem callScope_erase (f : Function) (arguments : List Value) :
    callScope f.erase arguments = (callScope f arguments).map Scope.erase := by
  -- The errors of a scope have no locations.
  rw [← mapError_id (Except.map Scope.erase _)]
  refine bind_erase ?_ fun s => ?_
  · refine foldlM_erase (fun s entry => ?_) (List.map_id _).symm .empty
    rw [mapError_id]
    exact s.declare_erase entry.1 (.cell entry.2)
  · refine foldlM_erase (fun s x => ?_) (List.map_id _).symm s
    rw [mapError_id]
    exact s.allocate_erase x

/-- The bindings of an erased program are the erased bindings. -/
theorem globalScope_erase (p : Program) :
    globalScope p.erase = ((globalScope p).map Scope.erase).mapError RuntimeError.erase := by
  -- First the functions, and then the variables, which are always blamed on the start.
  refine bind_erase ?_ fun s => ?_
  · refine foldlM_erase (fun s f => ?_) p.functions_erase .empty
    exact blame_erase (s.declare_erase f.name (.function f)) f.loc
  · refine foldlM_erase (fun s x => ?_) (List.map_id _).symm s
    exact blame_erase (s.allocate_erase x) .start

/-- The loop without its location and those of its blocks. -/
def Loop.erase (l : Loop) : Loop := ⟨Stmt.eraseAll l.condition, Stmt.eraseAll l.body, .start⟩

/-- The role of a block with the loop it belongs to erased. -/
def Role.erase : Role → Role
  | .sequence => .sequence
  | .condition loop => .condition loop.erase
  | .body loop => .body loop.erase

/-- The cursor with the statements ahead of it erased. -/
def Cursor.erase (c : Cursor) : Cursor := ⟨Stmt.eraseAll c.rest, c.role.erase⟩

namespace Store

/-- The store without locations. -/
def erase (a : Store Transcript) : Store Transcript := ⟨a.scope.erase, a.stack, a.sink.erase⟩

variable {α : Type}

/-- A result without locations, where `f` erases the value. -/
def eraseResult (f : α → α) :
    EStateM.Result Fault (Store Transcript) α → EStateM.Result Fault (Store Transcript) α
  | .ok v a => .ok (f v) a.erase
  | .error fault a => .error fault a.erase

/-- The action `y` does on an erased store what `x` does on the store itself, erased. -/
def Erases (f : α → α) (x y : EStateM Fault (Store Transcript) α) : Prop :=
  ∀ a, y a.erase = eraseResult f (x a)

theorem erases_popBool : Erases id popBool popBool := by
  intro a
  simp only [popBool, erase]
  cases a.stack.pop? with
  | none => rfl
  | some top =>
      rcases top with ⟨v, below⟩
      cases v <;> rfl

theorem erases_operate (op : Operator) : Erases id (operate op) (operate op) := by
  intro a
  simp only [operate, erase]
  cases a.stack.popPair? with
  | none => rfl
  | some top =>
      rcases top with ⟨lhs, rhs, below⟩
      simp only []
      cases op.apply lhs rhs <;> rfl

theorem erases_onScope (change : Scope → Except ScopeError Scope)
    (h : ∀ s, change s.erase = (change s).map Scope.erase) :
    Erases id (onScope change) (onScope change) := by
  intro a
  simp only [onScope, erase, h]
  cases change a.scope <;> rfl

theorem erases_load (x : String) : Erases id (load x) (load x) := by
  intro a
  simp only [load, erase, Scope.value_erase]
  cases a.scope.value x <;> rfl

theorem erases_save (x : String) : Erases id (save x) (save x) := by
  intro a
  simp only [save, pop, erase]
  cases a.stack.pop? with
  | none => rfl
  | some top =>
      rcases top with ⟨v, below⟩
      exact erases_onScope (fun s => s.assign x v) (fun s => s.assign_erase x v)
        { a with stack := below }

/-- Only here a location is handed on, and the transcript forgets it. -/
theorem erases_print (loc : Location) : Erases id (print loc) (print .start) := by
  intro a
  simp only [print, pop, erase]
  cases a.stack.pop? <;> rfl

theorem erases_perform (s : Stmt) : Erases id (perform s) (perform s.erase) := by
  cases s with
  | operator op loc => exact erases_operate op
  | declare x loc => exact erases_onScope (fun s => s.allocate x) fun s => s.allocate_erase x
  | read x loc => exact erases_load x
  | assign x loc => exact erases_save x
  | print loc => exact erases_print loc
  | literal | ifThen | ifElse | loop | function | call => exact fun a => rfl

/-- A call of an erased function. -/
theorem erases_openCall (look : String → Except ScopeError Function) (limit depth : Nat)
    (name : String) :
    Erases (Prod.map Function.erase Scope.erase) (openCall look limit depth name)
      (openCall (fun x => (look x).map Function.erase) limit depth name) := by
  intro a
  simp only [openCall, erase]
  cases look name with
  | error e => rfl
  | ok function =>
      -- The limit and the parameters are the same.
      by_cases hlimit : limit ≤ depth
      · simp only [hlimit, if_true]
        rfl
      · simp only [hlimit, if_false, Except.map, Function.parameters_erase]
        cases a.stack.popMany? function.parameters.length with
        | none => rfl
        | some taken =>
            rcases taken with ⟨arguments, below⟩
            simp only [callScope_erase]
            cases callScope function arguments <;> rfl

end Store

/-- The move without locations. -/
def Move.erase : Move Transcript → Move Transcript
  | .stay a cs => .stay a.erase (cs.map Cursor.erase)
  | .call a cs function scope _ =>
      .call a.erase (cs.map Cursor.erase) function.erase scope.erase .start
  | .leave => .leave
  | .fail e a cs => .fail e.erase a.erase (cs.map Cursor.erase)

section Moves

variable {look : String → Except ScopeError Function} {limit depth : Nat}

theorem Move.of_erase {α : Type} {x y : EStateM Fault (Store Transcript) α}
    (hxy : Store.Erases id x y) (loc : Location) {next next' : α → List Cursor}
    (hnext : ∀ v, next' v = (next v).map Cursor.erase) (kept : List Cursor)
    (a : Store Transcript) :
    Move.of .start next' (kept.map Cursor.erase) (y a.erase) =
      (Move.of loc next kept (x a)).erase := by
  rw [hxy a]
  cases x a with
  | ok v b => exact congrArg (Move.stay b.erase) (hnext v)
  | error fault b => rfl

variable (a : Store Transcript) (cs : List Cursor)

theorem moveEnd_erase (role : Role) :
    moveEnd role.erase a.erase (cs.map Cursor.erase) = (moveEnd role a cs).erase := by
  cases role with
  | sequence => rfl
  | condition loop =>
      refine Move.of_erase Store.erases_popBool loop.loc (fun b => ?_) cs a
      cases b <;> rfl
  | body loop => rfl

theorem moveStmt_erase (s : Stmt) :
    moveStmt (fun x => (look x).map Function.erase) limit depth s.erase a.erase
        (cs.map Cursor.erase) = (moveStmt look limit depth s a cs).erase := by
  -- The move of all statements that neither branch nor call.
  have hperform : Move.of .start (fun _ => cs.map Cursor.erase) (cs.map Cursor.erase)
      (Store.perform s.erase a.erase) =
        (Move.of s.loc (fun _ => cs) cs (Store.perform s a)).erase :=
    Move.of_erase (Store.erases_perform s) s.loc (fun _ => rfl) cs a
  cases s with
  | ifThen block loc =>
      refine Move.of_erase Store.erases_popBool loc (fun b => ?_) cs a
      cases b <;> rfl
  | ifElse block other loc =>
      refine Move.of_erase Store.erases_popBool loc (fun b => ?_) cs a
      cases b <;> rfl
  | loop condition body loc => rfl
  | call name site =>
      simp only [moveStmt, Stmt.erase, Store.erases_openCall look limit depth name a]
      cases Store.openCall look limit depth name a <;> rfl
  | literal | operator | declare | read | assign | function | print => exact hperform

/-- The move of erased cursors is the erased move. -/
theorem move_erase :
    move (fun x => (look x).map Function.erase) limit depth a.erase (cs.map Cursor.erase) =
      (move look limit depth a cs).erase := by
  rcases cs with _ | ⟨⟨_ | ⟨s, rest⟩, role⟩, cs⟩
  · rfl
  · exact moveEnd_erase a cs role
  · exact moveStmt_erase a (⟨rest, role⟩ :: cs) s

end Moves

/-- The frame with its scope and cursors erased. -/
def Frame.erase (f : Frame) : Frame := ⟨f.stack, f.scope.erase, f.cursors.map Cursor.erase⟩

/-- The frame of a call without the location of the call. -/
def CallFrame.erase (c : CallFrame) : CallFrame := ⟨c.toFrame.erase, c.function.erase, .start⟩

@[simp]
theorem CallFrame.stack_erase (c : CallFrame) : c.erase.stack = c.stack := rfl

@[simp]
theorem CallFrame.arity_erase (c : CallFrame) : c.erase.function.arity = c.function.arity := rfl

namespace CallStack

/-- The call stack without locations. -/
def erase (c : CallStack) : CallStack :=
  ⟨c.global.erase, c.calls.map CallFrame.erase, c.depth, by rw [c.depth_eq, List.length_map]⟩

theorem current_erase (c : CallStack) : c.erase.current = c.current.erase := by
  rcases c with ⟨global, calls, depth, h⟩
  cases calls <;> rfl

theorem setCurrent_erase (c : CallStack) (f : Frame) :
    c.erase.setCurrent f.erase = (c.setCurrent f).erase := by
  rcases c with ⟨global, calls, depth, h⟩
  cases calls <;> rfl

theorem pop?_erase (c : CallStack) :
    c.erase.pop? = c.pop?.map (Prod.map CallFrame.erase erase) := by
  rcases c with ⟨global, calls, depth, h⟩
  cases calls <;> rfl

end CallStack

/-- The machine without locations. -/
def Machine.erase (m : Machine Transcript) : Machine Transcript :=
  ⟨m.program.erase, m.limit, m.calls.erase, m.sink.erase⟩

/-- The step of a machine without locations. -/
def Step.erase : Step Transcript → Step Transcript
  | .running m => .running m.erase
  | .finished m => .finished m.erase
  | .failed e m => .failed e.erase m.erase

namespace Machine

variable (m : Machine Transcript)

@[simp]
theorem calls_erase : m.erase.calls = m.calls.erase := rfl

theorem place_erase (a : Store Transcript) (cs : List Cursor) :
    m.erase.place a.erase (cs.map Cursor.erase) = (m.place a cs).erase := by
  simp only [place, erase, ← CallStack.setCurrent_erase]
  rfl

theorem store_erase : m.erase.store = m.store.erase := by
  simp only [store, erase, CallStack.current_erase]
  rfl

theorem look_erase : m.erase.look = fun x => (m.look x).map Function.erase := by
  funext x
  exact m.calls.global.scope.function_erase x

theorem setStack_erase (s : Stack) : m.erase.setStack s = (m.setStack s).erase := by
  rw [setStack_eq_place, setStack_eq_place, ← place_erase, store_erase]
  simp only [erase, CallStack.current_erase]
  rfl

theorem leaveCall_erase (call : CallFrame) (callers : CallStack) :
    m.erase.leaveCall call.erase callers.erase = (m.leaveCall call callers).erase := by
  simp only [leaveCall, CallFrame.stack_erase, CallFrame.arity_erase]
  cases call.stack.popMany? call.function.arity.count with
  | none => rfl
  | some taken =>
      simp only [Step.erase, ← setStack_erase, CallStack.current_erase]
      rfl

theorem apply_erase (mv : Move Transcript) : mv.erase.apply m.erase = (mv.apply m).erase := by
  cases mv with
  | stay a cs => exact congrArg Step.running (m.place_erase a cs)
  | call a cs function scope site =>
      simp only [Move.erase, Move.apply, place_erase]
      rfl
  | leave =>
      simp only [Move.erase, Move.apply, calls_erase, CallStack.pop?_erase]
      cases m.calls.pop? with
      | none => rfl
      | some top => exact m.leaveCall_erase top.1 top.2
  | fail e a cs => exact congrArg (Step.failed e.erase) (m.place_erase a cs)

/-- A step of an erased machine is the erased step. -/
theorem step_erase : m.erase.step = m.step.erase := by
  -- A step is a move, and every part of the machine that a move looks at is erased.
  rw [step_eq, step_eq, ← apply_erase, ← move_erase, look_erase, store_erase]
  simp only [erase, CallStack.current_erase]
  rfl

/-- Runs go on in lockstep. -/
theorem runFor_erase (n : Nat) :
    runFor n m.erase =
      (runFor n m).map fun r => (r.1.mapError RuntimeError.erase, r.2.erase) := by
  induction n generalizing m with
  | zero => rfl
  | succ n ih =>
      simp only [runFor, step_erase]
      cases m.step with
      | running m' => exact ih m'
      | finished m' => rfl
      | failed e m' => rfl

theorem load_erase (initial : List Integer) :
    m.erase.load initial = ((m.load initial).map erase).mapError RuntimeError.erase := by
  simp only [load]
  rw [show m.erase.program = m.program.erase from rfl, globalScope_erase]
  cases globalScope m.program <;> rfl

/-- A run of an erased machine is the erased run. -/
theorem run_erase (fuel : Nat) (initial : List Integer) :
    m.erase.run fuel initial =
      (m.run fuel initial).map fun r => (r.1.mapError RuntimeError.erase, r.2.erase) := by
  have hload := m.load_erase initial
  cases h : m.load initial with
  | error e =>
      -- The names clash, and the machine is left as it was.
      rw [h] at hload
      simp only [run, h, hload]
      rfl
  | ok start =>
      rw [h] at hload
      rw [run_of_load hload, run_of_load h, runFor_erase, Option.map_map, Option.map_map]
      congr 1
      funext r
      rcases r with ⟨_ | _, m'⟩ <;> rfl

end Machine

/-- A source text is run by way of its erased program. -/
theorem runSource_erase (fuel : Nat) (source : String) (initial : List Integer) :
    (runSource fuel source initial).map (Except.mapError Error.erase) =
      match ((compile source).map Program.erase).mapError Error.erase with
      | .error e => some (.error e)
      | .ok p =>
          ((Machine.idle p defaultLimit Transcript.empty).run fuel initial).map fun r =>
            (r.1.map fun stack => ⟨stack, r.2.sink.values⟩).mapError Error.runtime := by
  unfold runSource
  cases compile source with
  | error e => rfl
  | ok p =>
      change _ =
        ((Machine.idle p defaultLimit Transcript.empty).erase.run fuel initial).map _
      rw [Machine.run_erase, Option.map_map]
      simp only []
      rcases (Machine.idle p defaultLimit Transcript.empty).run fuel initial with
        _ | ⟨e | stack, m⟩
      · rfl
      · rfl
      · -- The values printed are the same, wherever they were printed.
        have hvalues : m.erase.sink.values = m.sink.values := m.sink.values_erase
        exact congrArg (fun values => some (Except.ok (Outcome.mk stack values))) hvalues.symm

/-- The layout of a text does not matter. Two texts of the same words, whatever stands between
    the words, compile to programs that are equal without their locations, or fail with errors
    that are. From every initial stack the run of the one is over after a number of steps if
    and only if that of the other is, and then the final stacks and the printed values are the
    same, or the errors are, but for their locations. -/
theorem runSource_of_spells {a b : String} {ws : List (List Char)} (ha : Spells a ws)
    (hb : Spells b ws) (initial : List Integer) :
    ((compile a).map Program.erase).mapError Error.erase =
        ((compile b).map Program.erase).mapError Error.erase ∧
      ∀ fuel, (runSource fuel a initial).map (Except.mapError Error.erase) =
        (runSource fuel b initial).map (Except.mapError Error.erase) := by
  have hcompile := compile_of_spells ha hb
  refine ⟨hcompile, fun fuel => ?_⟩
  rw [runSource_erase, runSource_erase, hcompile]

/-- A function that divides by its argument, called with zero. -/
def divided : String := "| F ( VALUE x ) 7 x / RETURN 1 | 0 F"

/-- The same with line breaks and comments, one of them right after a word. -/
def dividedInLines : String :=
  "# Seven by x\n| F ( VALUE x )\n  7 x /# fails\n  RETURN 1 |\n\n0 F"

/-- The words of both. -/
def dividedWords : List (List Char) :=
  ["|", "F", "(", "VALUE", "x", ")", "7", "x", "/", "RETURN", "1", "|", "0", "F"].map String.toList

/-- The division fails in another place, and for the same reason. -/
theorem runSource_divided :
    Spells divided dividedWords ∧ Spells dividedInLines dividedWords ∧
      runSource 9 divided [] = some (.error (.runtime ⟨.divisionByZero, ⟨1, 21⟩⟩)) ∧
      (runSource 9 dividedInLines []).map (Except.mapError Error.erase) =
        some (.error (.runtime ⟨.divisionByZero, .start⟩)) := by
  have ha : Spells divided dividedWords :=
    ⟨wordsOf divided, laid_iff.2 rfl, by decide +kernel⟩
  have hb : Spells dividedInLines dividedWords :=
    ⟨wordsOf dividedInLines, laid_iff.2 rfl, by decide +kernel⟩
  have hrun : runSource 9 divided [] = some (.error (.runtime ⟨.divisionByZero, ⟨1, 21⟩⟩)) := by
    with_unfolding_all rfl
  refine ⟨ha, hb, hrun, ?_⟩
  rw [← (runSource_of_spells ha hb []).2 9, hrun]
  rfl

end StackLang
