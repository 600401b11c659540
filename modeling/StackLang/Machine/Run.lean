import StackLang.Machine.Step

/-!
# Running a program

Before a run every function of the top level is bound, so functions can be
called before their declaration is reached, and every global variable exists and
holds zero. Then the machine takes steps until it is finished or fails.

A program need not end, so a run is given a number of steps that it may take at
most, and has no outcome when they do not suffice. Once it has an outcome, more
steps do not change it.

A machine can be run again and again. Each run starts afresh, except that the
sink keeps what it has; and a run that fails before its first step leaves the
call stack of the run before.

## Main definitions

* `defaultLimit`: How many calls may be active unless said otherwise.
* `Machine.idle`: A machine that has not been run.
* `globalScope`: The bindings at the start of a run.
* `Machine.load`: The machine at the start of a run.
* `Machine.runFor`: At most so many steps.
* `Machine.run`: A run, from the start.

## Theorems

* `Machine.runFor_mono`: More steps do not change an outcome.
-/

namespace StackLang

/-- How many calls may be active at once unless said otherwise. -/
def defaultLimit : Nat := 4000

/-- The bindings at the start of a run: the functions of the top level, and the
    global variables at zero. A clash between functions is blamed on the later
    one, all others on the start of the text. -/
def globalScope (p : Program) : Except RuntimeError Scope := do
  -- Functions come first, so of a function and a variable the variable clashes.
  let functions ← p.functions.foldlM (fun s f =>
    (s.declare f.name (.function f)).mapError fun e => ⟨e.fault, f.loc⟩) Scope.empty
  p.globals.foldlM (fun s x => (s.allocate x).mapError fun e => ⟨e.fault, .start⟩) functions

variable {σ : Type}

namespace Machine

/-- A machine that has not been run. -/
def idle (p : Program) (limit : Nat) (sink : σ) : Machine σ :=
  ⟨p, limit, .ofGlobal .empty .empty [], sink⟩

/-- The machine at the start of a run, with the given integers on the global
    stack from the bottom up. -/
def load (m : Machine σ) (initial : List Integer) : Except RuntimeError (Machine σ) :=
  match globalScope m.program with
  | .ok s =>
      .ok { m with calls := .ofGlobal s (.ofList (initial.map .int)) m.program.statements }
  | .error e => .error e

/-- The outcome after at most `fuel` steps, and the machine that is left; `none`
    if the machine is still running. -/
def runFor [Sink σ] : Nat → Machine σ → Option (Except RuntimeError Unit × Machine σ)
  | 0, _ => none
  | fuel + 1, m =>
      match m.step with
      | .running m => runFor fuel m
      | .finished m => some (.ok (), m)
      | .failed e m => some (.error e, m)

/-- The global stack, from the bottom up. -/
def globalStack (m : Machine σ) : List Value := m.calls.global.stack.toList

/-- The outcome of a run of at most `fuel` steps, which is the final global stack
    or an error, and the machine that is left. -/
def run [Sink σ] (fuel : Nat) (initial : List Integer) (m : Machine σ) :
    Option (Except RuntimeError (List Value) × Machine σ) :=
  match m.load initial with
  | .error e => some (.error e, m)
  | .ok m =>
      match runFor fuel m with
      | none => none
      | some (.ok _, m) => some (.ok m.globalStack, m)
      | some (.error e, m) => some (.error e, m)

theorem runFor_mono [Sink σ] {fuel more : Nat} {m : Machine σ}
    {outcome : Except RuntimeError Unit × Machine σ} (hle : fuel ≤ more)
    (h : runFor fuel m = some outcome) : runFor more m = some outcome := by
  induction fuel generalizing more m with
  | zero => cases h
  | succ fuel ih =>
      obtain ⟨more, rfl⟩ : ∃ n, more = n + 1 := ⟨more - 1, by omega⟩
      simp only [runFor] at h ⊢
      split at h
      next hs => exact ih (by omega) h
      next hs => exact h
      next hs => exact h

end Machine

end StackLang
