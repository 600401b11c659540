import StackLang.Machine.Run

/-!
# Traces

Steps counted, and what that buys.

`Machine.runFor` says how a run ends, and says nothing about the states on the
way. `Machine.advance` is the other half: the machine after a given number of
steps, as long as it is still running. A state is reachable when some number of
steps leads to it, and a run that ends is a number of steps to a last state and
one more that does not go on. Since a step is a function, the run from a
reachable state is the rest of the run, so an outcome found there is the outcome
of the whole.

An invariant is proved once for a single step. `Machine.reaches_induction` then
carries it to every reachable state, and `Machine.runFor_eq_some_iff` to the
state in which a run ends.

## Main definitions

* `Machine.advance`: The machine after exactly so many steps.
* `Machine.Reaches`: Some number of steps leads from one machine to another.
* `Step.outcome?`: How a run ends in a step that does not go on.
* `Step.machine`: The machine that a step leaves.

## Theorems

* `Machine.advance_add`: Walking on from where a walk ended.
* `Machine.Reaches.trans`: Reachability is transitive.
* `Machine.Reaches.single`: A step is a way of length one.
* `Machine.reaches_induction`: What a step keeps holds in all reachable states.
* `Machine.runFor_add`: A run from a reachable state is the rest of the run.
* `Machine.runFor_unique`: A run has one outcome.
* `Machine.runFor_eq_none_of_advance`: A run that outlasts its second part
  outlasts the whole.
* `Machine.runFor_eq_some_iff`: A run ends in the step after a reachable state.
* `Machine.run_of_load`, `Machine.run_eq_some_iff`: A run is what its steps are, from the
  start.
-/

namespace StackLang

variable {σ : Type}

/-- How a run ends in a step, if it does. -/
def Step.outcome? : Step σ → Option (Except RuntimeError Unit × Machine σ)
  | .running _ => none
  | .finished m => some (.ok (), m)
  | .failed e m => some (.error e, m)

/-- The machine that a step leaves. -/
def Step.machine : Step σ → Machine σ
  | .running m => m
  | .finished m => m
  | .failed _ m => m

variable [Sink σ]

namespace Machine

/-- The machine after exactly `n` steps, or `none` if it stops before. -/
def advance : Nat → Machine σ → Option (Machine σ)
  | 0, m => some m
  | n + 1, m =>
      match m.step with
      | .running m => advance n m
      | .finished _ => none
      | .failed _ _ => none

/-- Some number of steps leads from `m` to `m'`. -/
def Reaches (m m' : Machine σ) : Prop := ∃ n, advance n m = some m'

theorem advance_succ {m m' : Machine σ} (n : Nat) (h : m.step = .running m') :
    advance (n + 1) m = advance n m' := by
  simp only [advance, h]

theorem advance_add {m m' : Machine σ} {k : Nat} (n : Nat) (h : advance k m = some m') :
    advance (k + n) m = advance n m' := by
  induction k generalizing m with
  | zero =>
      cases h
      rw [Nat.zero_add]
  | succ k ih =>
      rw [show k + 1 + n = k + n + 1 by omega]
      simp only [advance] at h ⊢
      cases hs : m.step with
      | running m₁ =>
          rw [hs] at h
          exact ih h
      | finished m₁ => rw [hs] at h; cases h
      | failed e m₁ => rw [hs] at h; cases h

theorem Reaches.refl (m : Machine σ) : m.Reaches m := ⟨0, rfl⟩

theorem Reaches.single {m m' : Machine σ} (h : m.step = .running m') : m.Reaches m' :=
  ⟨1, by rw [advance_succ 0 h, advance]⟩

theorem Reaches.trans {m m' m'' : Machine σ} (h : m.Reaches m') (h' : m'.Reaches m'') :
    m.Reaches m'' := by
  rcases h with ⟨k, hk⟩
  rcases h' with ⟨n, hn⟩
  exact ⟨k + n, (advance_add n hk).trans hn⟩

/-- What holds at the start and is kept by every step holds in all reachable
    states. -/
theorem reaches_induction {P : Machine σ → Prop}
    (hstep : ∀ m m', P m → m.step = .running m' → P m')
    {m m' : Machine σ} (h : m.Reaches m') (hm : P m) : P m' := by
  rcases h with ⟨n, hn⟩
  induction n generalizing m with
  | zero => cases hn; exact hm
  | succ n ih =>
      simp only [advance] at hn
      cases hs : m.step with
      | running m₁ =>
          rw [hs] at hn
          exact ih (hstep m m₁ hm hs) hn
      | finished m₁ => rw [hs] at hn; cases hn
      | failed e m₁ => rw [hs] at hn; cases hn

theorem runFor_add {m m' : Machine σ} {k : Nat} (n : Nat) (h : advance k m = some m') :
    runFor (k + n) m = runFor n m' := by
  induction k generalizing m with
  | zero =>
      cases h
      rw [Nat.zero_add]
  | succ k ih =>
      rw [show k + 1 + n = k + n + 1 by omega]
      simp only [advance] at h
      simp only [runFor]
      cases hs : m.step with
      | running m₁ =>
          rw [hs] at h
          exact ih h
      | finished m₁ => rw [hs] at h; cases h
      | failed e m₁ => rw [hs] at h; cases h

/-- A run that has not ended after `n` steps had not ended before. -/
theorem runFor_eq_none_of_le {m : Machine σ} {n k : Nat} (hle : k ≤ n)
    (h : runFor n m = none) : runFor k m = none := by
  cases hk : runFor k m with
  | none => rfl
  | some outcome =>
      rw [runFor_mono hle hk] at h
      cases h

/-- Runs of different lengths that have both ended have ended alike. -/
theorem runFor_unique {m : Machine σ} {n k : Nat}
    {outcome outcome' : Except RuntimeError Unit × Machine σ} (hn : runFor n m = some outcome)
    (hk : runFor k m = some outcome') : outcome = outcome' := by
  have hn' := runFor_mono (Nat.le_max_left n k) hn
  have hk' := runFor_mono (Nat.le_max_right n k) hk
  rw [hn'] at hk'
  exact Option.some.inj hk'

theorem runFor_eq_none_of_advance {m m' : Machine σ} {k n total : Nat}
    (hk : advance k m = some m') (hn : runFor n m' = none) (hle : total ≤ k + n) :
    runFor total m = none := by
  refine runFor_eq_none_of_le hle ?_
  rw [runFor_add n hk]
  exact hn

theorem runFor_eq_some_of_reaches {m m' : Machine σ} (h : m.Reaches m') {n : Nat}
    {outcome : Except RuntimeError Unit × Machine σ} (hn : runFor n m' = some outcome) :
    ∃ k, runFor k m = some outcome := by
  rcases h with ⟨k, hk⟩
  exact ⟨k + n, (runFor_add n hk).trans hn⟩

theorem runFor_succ_of_outcome {m : Machine σ} (n : Nat)
    {outcome : Except RuntimeError Unit × Machine σ} (h : m.step.outcome? = some outcome) :
    runFor (n + 1) m = some outcome := by
  simp only [runFor]
  cases hs : m.step with
  | running m₁ => rw [hs] at h; cases h
  | finished m₁ => rw [hs] at h; exact h
  | failed e m₁ => rw [hs] at h; exact h

/-- A run ends in the step after a reachable state, and only there. -/
theorem runFor_eq_some_iff {m : Machine σ} {outcome : Except RuntimeError Unit × Machine σ} :
    (∃ n, runFor n m = some outcome) ↔
      ∃ m', m.Reaches m' ∧ m'.step.outcome? = some outcome := by
  constructor
  · rintro ⟨n, hn⟩
    induction n generalizing m with
    | zero => cases hn
    | succ n ih =>
        simp only [runFor] at hn
        cases hs : m.step with
        | running m₁ =>
            -- The rest of the run ends as the whole does.
            rw [hs] at hn
            rcases ih hn with ⟨m', hreach, hend⟩
            exact ⟨m', (Reaches.single hs).trans hreach, hend⟩
        | finished m₁ =>
            rw [hs] at hn
            exact ⟨m, Reaches.refl m, by rw [hs]; exact hn⟩
        | failed e m₁ =>
            rw [hs] at hn
            exact ⟨m, Reaches.refl m, by rw [hs]; exact hn⟩
  · rintro ⟨m', hreach, hend⟩
    exact runFor_eq_some_of_reaches hreach (runFor_succ_of_outcome 0 hend)

/-- Once a program is loaded, its run is that of its steps, and a success hands out the
    global stack. -/
theorem run_of_load {m start : Machine σ} {initial : List Integer}
    (h : m.load initial = .ok start) (fuel : Nat) :
    m.run fuel initial =
      (runFor fuel start).map fun r => (r.1.map fun _ => r.2.globalStack, r.2) := by
  simp only [run, h]
  rcases runFor fuel start with _ | ⟨_ | _, m'⟩ <;> rfl

theorem run_eq_some_iff {m start m' : Machine σ} {initial : List Integer} {fuel : Nat}
    {result : Except RuntimeError (List Value)} (hload : m.load initial = .ok start) :
    m.run fuel initial = some (result, m') ↔
      ∃ ended, runFor fuel start = some (ended, m') ∧
        result = ended.map fun _ => m'.globalStack := by
  rw [run_of_load hload, Option.map_eq_some_iff]
  constructor
  · rintro ⟨⟨ended, last⟩, hrun, heq⟩
    cases heq
    exact ⟨ended, hrun, rfl⟩
  · rintro ⟨ended, hrun, rfl⟩
    exact ⟨(ended, m'), hrun, rfl⟩

end Machine

end StackLang
