import StackLang.Proofs.Refusal

/-!
# Runs one after another

What a run leaves behind, and why the next one does not see it.

A run that fails leaves its active calls, its half-run blocks and its changed variables in
the machine. None of this is looked at again, because a run starts by replacing the call
stack. There is one exception: a run whose bindings clash fails before that. But what it
depends on is the program, which no run changes, so then every run of the machine has failed
in this way, and the call stack is still the one the machine was made with. That is the
invariant, `Machine.Rerunnable`.

What is left is the sink. It is kept on purpose, and a transcript takes every value whatever
it holds, so a run goes on in it as it would in an empty one.

## Main definitions

* `Machine.AfterRuns`: A machine after a number of runs that have ended.
* `Machine.Rerunnable`: What every run keeps: program, limit, and a call stack that matters
  to no other run.

## Theorems

* `Machine.setup_of_runFor`, `Machine.setup_of_run`: A run keeps the program and the limit.
* `Machine.Rerunnable.of_run`: A run leaves the machine to be run again.
* `Machine.Rerunnable.of_afterRuns`: So do any number of runs.
* `Machine.Rerunnable.run_eq`: A run is the run of a new machine, up to the sink.
* `run_afterRuns`: Earlier runs do not show in a run.
-/

namespace StackLang

variable {σ : Type}

theorem Transcript.accepts (t : Transcript) (ps : List Printed) : Sink.Accepts t ps :=
  Sink.accepts_of_takes (fun _ _ => ⟨_, rfl⟩) t ps

namespace Machine

/-- The machine can be run again as if it were new: if its program can not be loaded, its
    call stack is still that of a new machine. -/
structure Rerunnable (p : Program) (limit : Nat) (m : Machine σ) : Prop where
  program_eq : m.program = p
  limit_eq : m.limit = limit
  calls_eq : ∀ e, globalScope p = .error e → m.calls = .ofGlobal .empty .empty []

theorem Rerunnable.of_idle (p : Program) (limit : Nat) (sink : σ) :
    (idle p limit sink).Rerunnable p limit :=
  ⟨rfl, rfl, fun _ _ => rfl⟩

/-- No move changes the program or the limit. -/
theorem setup_apply (m : Machine σ) (mv : Move σ) :
    (mv.apply m).machine.program = m.program ∧ (mv.apply m).machine.limit = m.limit := by
  cases mv with
  | stay a cs => exact ⟨rfl, rfl⟩
  | call a cs function scope site => exact ⟨rfl, rfl⟩
  | leave =>
      rcases apply_leave_cases m with
        ⟨_, hleave⟩ | ⟨call, callers, _, ⟨results, hleave⟩ | ⟨e, hleave⟩⟩
      · rw [hleave]; exact ⟨rfl, rfl⟩
      · rw [hleave]; exact ⟨rfl, rfl⟩
      · rw [hleave]; exact ⟨rfl, rfl⟩
  | fail e a cs => exact ⟨rfl, rfl⟩

variable [Sink σ]

theorem setup_of_step (m : Machine σ) :
    m.step.machine.program = m.program ∧ m.step.machine.limit = m.limit := by
  rw [step_eq]
  exact setup_apply m _

/-- A run keeps the program and the limit. -/
theorem setup_of_runFor {m m' : Machine σ} {n : Nat} {result : Except RuntimeError Unit}
    (h : runFor n m = some (result, m')) : m'.program = m.program ∧ m'.limit = m.limit := by
  induction n generalizing m with
  | zero => cases h
  | succ n ih =>
      have hsetup := setup_of_step m
      simp only [runFor] at h
      cases hs : m.step with
      | running m₁ =>
          rw [hs] at h hsetup
          rcases ih h with ⟨hprogram, hlimit⟩
          exact ⟨hprogram.trans hsetup.1, hlimit.trans hsetup.2⟩
      | finished m₁ => rw [hs] at h hsetup; cases h; exact hsetup
      | failed e m₁ => rw [hs] at h hsetup; cases h; exact hsetup

theorem setup_of_run {m m' : Machine σ} {fuel : Nat} {initial : List Integer}
    {result : Except RuntimeError (List Value)} (h : m.run fuel initial = some (result, m')) :
    m'.program = m.program ∧ m'.limit = m.limit := by
  cases hload : m.load initial with
  | error e =>
      rw [run, hload] at h
      cases h
      exact ⟨rfl, rfl⟩
  | ok start =>
      rcases (run_eq_some_iff hload).1 h with ⟨ended, hrun, _⟩
      have hsetup := setup_of_runFor hrun
      rcases load_eq_ok hload with ⟨scope, _, rfl⟩
      exact hsetup

/-- The machine that `m` has become after it was run on each of the initial stacks, in this
    order. Every run has ended, in success or in failure. -/
inductive AfterRuns (m : Machine σ) : List (List Integer) → Machine σ → Prop where
  | none : AfterRuns m [] m
  | run {history : List (List Integer)} {m₁ m₂ : Machine σ} {fuel : Nat}
      {initial : List Integer} {result : Except RuntimeError (List Value)}
      (before : AfterRuns m history m₁) (ended : m₁.run fuel initial = some (result, m₂)) :
      AfterRuns m (history ++ [initial]) m₂

namespace Rerunnable

variable {p : Program} {limit : Nat}

/-- A run leaves the machine to be run again. -/
theorem of_run {m m' : Machine σ} {fuel : Nat} {initial : List Integer}
    {result : Except RuntimeError (List Value)} (hm : m.Rerunnable p limit)
    (h : m.run fuel initial = some (result, m')) : m'.Rerunnable p limit := by
  rcases setup_of_run h with ⟨hprogram, hlimit⟩
  refine ⟨hprogram.trans hm.program_eq, hlimit.trans hm.limit_eq, fun e he => ?_⟩
  -- A program that can not be loaded has not been loaded by this run either.
  have hload : m.load initial = .error e := by
    rw [load, hm.program_eq, he]
  rw [run, hload] at h
  cases h
  exact hm.calls_eq e he

theorem of_afterRuns {m m' : Machine σ} {history : List (List Integer)}
    (hm : m.Rerunnable p limit) (h : m.AfterRuns history m') : m'.Rerunnable p limit := by
  induction h with
  | none => exact hm
  | run before ended ih => exact ih.of_run ended

omit [Sink σ] in
/-- With an empty transcript the run is that of a new machine. -/
theorem run_recording_eq {m : Machine σ} (hm : m.Rerunnable p limit) (fuel : Nat)
    (initial : List Integer) :
    m.recording.run fuel initial = (idle p limit Transcript.empty).run fuel initial := by
  rcases m with ⟨program, limit', calls, sink⟩
  rcases hm with ⟨rfl, rfl, hcalls⟩
  cases hscope : globalScope program with
  | error e =>
      -- Here the call stack is left as it is, so it has to be that of a new machine.
      cases hcalls e hscope
      rfl
  | ok scope =>
      have hrecording : (⟨program, limit', calls, sink⟩ : Machine σ).recording.load initial =
          (idle program limit' Transcript.empty).load initial := by
        rw [load_eq hscope, load_eq hscope]
        rfl
      simp only [run, hrecording, load_eq (m := idle program limit' Transcript.empty) hscope]

/-- A run is that of a new machine, up to the transcript: what it held before is still
    there, and what the new machine records comes after it. -/
theorem run_eq {m : Machine Transcript} (hm : m.Rerunnable p limit) (fuel : Nat)
    (initial : List Integer) :
    m.run fuel initial = ((idle p limit Transcript.empty).run fuel initial).map fun r =>
      (r.1, r.2.withSink (Sink.feed m.sink (m.recording.output fuel initial))) := by
  rw [← hm.run_recording_eq fuel initial]
  exact (run_of_accepts (Transcript.accepts m.sink (m.recording.output fuel initial))).2

end Rerunnable

end Machine

/-- Earlier runs do not show in a run. Let a machine with a transcript have been run any
    number of times, on any initial stacks, and let each run have ended in success or in
    failure, with whatever calls were active then. A further run ends exactly if the run of a
    new machine on the same initial stack does, after as many steps. Then it has the same
    result, leaves the same global stack and the same number of active calls, and the
    transcript holds what it held before, followed by what the new machine records. -/
theorem run_afterRuns (p : Program) (limit : Nat) (t : Transcript)
    (history : List (List Integer)) (m : Machine Transcript)
    (h : (Machine.idle p limit t).AfterRuns history m) (fuel : Nat) (initial : List Integer) :
    (m.run fuel initial = none ↔
      (Machine.idle p limit Transcript.empty).run fuel initial = none) ∧
    ∀ result fresh,
      (Machine.idle p limit Transcript.empty).run fuel initial = some (result, fresh) →
        ∃ last, m.run fuel initial = some (result, last) ∧
          last.globalStack = fresh.globalStack ∧ last.calls.depth = fresh.calls.depth ∧
            last.sink.toList = m.sink.toList ++ fresh.sink.toList := by
  have hm := (Machine.Rerunnable.of_idle p limit t).of_afterRuns h
  have hrun := hm.run_eq fuel initial
  constructor
  · rw [hrun, Option.map_eq_none_iff]
  · intro result fresh hfresh
    rw [hfresh] at hrun
    refine ⟨_, hrun, rfl, rfl, ?_⟩
    rw [← hm.run_recording_eq] at hfresh
    rw [Machine.toList_sink_of_run hfresh]
    exact Transcript.toList_feed _ _

/-- A program that divides twelve by each of two numbers, in a call inside a loop, and prints
    the quotients. -/
def quotients : Program :=
  ⟨[.declare "n" ⟨1, 10⟩,
    .function ⟨"QUOTIENT", ["x"], [], .one, ⟨2, 1⟩⟩
      [.literal (.int 12) ⟨3, 3⟩, .read "x" ⟨3, 6⟩, .operator .div ⟨3, 8⟩],
    .loop [.read "n" ⟨5, 7⟩, .literal (.int 2) ⟨5, 9⟩, .operator .lt ⟨5, 11⟩]
      [.call "QUOTIENT" ⟨6, 3⟩, .print ⟨6, 12⟩, .read "n" ⟨7, 3⟩, .literal (.int 1) ⟨7, 5⟩,
        .operator .add ⟨7, 7⟩, .assign "n" ⟨7, 9⟩] ⟨5, 1⟩], ["n"]⟩

/-- The first run fails in the second round of the loop, with a call active. The second run
    has both quotients, as that of a new machine. -/
theorem run_afterRuns_quotients :
    ∃ failed last : Machine Transcript,
      (Machine.idle quotients 1 .empty).run 100 [0, 3] =
        some (.error ⟨.divisionByZero, ⟨3, 8⟩⟩, failed) ∧
      failed.calls.depth = 1 ∧ failed.sink.values = [.int 4] ∧
      failed.run 100 [2, 3] = some (.ok [], last) ∧
      last.calls.depth = 0 ∧
      last.sink.toList =
        [⟨.int 4, ⟨6, 12⟩⟩] ++ [⟨.int 4, ⟨6, 12⟩⟩, ⟨.int 6, ⟨6, 12⟩⟩] := by
  have hfailed : (Machine.idle quotients 1 Transcript.empty).run 100 [0, 3] =
      some (.error ⟨.divisionByZero, ⟨3, 8⟩⟩, _) := rfl
  rcases (run_afterRuns quotients 1 .empty _ _ (.run .none hfailed) 100 [2, 3]).2 _ _ rfl with
    ⟨last, hrun, _, hdepth, hsink⟩
  exact ⟨_, last, hfailed, rfl, rfl, hrun, hdepth, hsink⟩

end StackLang
