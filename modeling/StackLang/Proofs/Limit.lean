import StackLang.Proofs.Output

/-!
# The limit on active calls

The limit decides whether a run is cut short and nothing else.

A step reads the limit only where it calls a function that exists, and there it asks
for one active call more than there are: its `Machine.demand`. A step whose demand is
met under two limits is the same under both, and a step whose demand is not met fails
for that reason. The highest demand of a run is its `Machine.peak`. So a run that is
not cut short is the same under every limit that is not below its peak; under a lower
limit `n` it is the same up to the first step with a demand above `n`, where `n` calls
are active, and there it fails. What it has printed by then is what the whole run
prints first.

## Main definitions

* `Machine.withLimit`: A machine under another limit.
* `Machine.demand`: The number of active calls that the next step asks for.
* `Machine.peak`, `Machine.peakOfRun`: The highest demand in so many steps, and in a
  run.
* `WithinLimit`: A run has not been cut short.

## Theorems

* `Machine.step_withLimit`: A step whose demand is met is the same under both limits.
* `Machine.step_of_lt_demand`: A step whose demand is not met fails.
* `Machine.depth_of_step`: A step leads to no more calls than there are or it asks for.
* `Machine.depth_of_outcome?`: The number of calls when a run ends.
* `Machine.runFor_withLimit_of_le`, `Machine.runFor_withLimit_of_lt`: Runs under another
  limit.
* `Machine.depth_le_limit_of_reaches`: There are never more calls than the limit allows.
* `run_withLimit`: The limit is exact and otherwise invisible.
-/

namespace StackLang

variable {σ : Type}

theorem CallStack.depth_le_of_pop? {c callers : CallStack} {call : CallFrame}
    (h : c.pop? = some (call, callers)) : callers.depth ≤ c.depth := by
  rcases c with ⟨global, _ | ⟨top, outer⟩, depth, hdepth⟩
  · cases h
  · cases h
    exact Nat.sub_le depth 1

namespace Machine

/-- The machine under another limit. -/
def withLimit (m : Machine σ) (limit : Nat) : Machine σ := { m with limit := limit }

/-- The number of active calls that the next step asks for: one more than there are if it
    calls a function that exists. -/
def demand (m : Machine σ) : Nat :=
  match m.next? with
  | some (.call name _) =>
      match m.look name with
      | .ok _ => m.calls.depth + 1
      | .error _ => 0
  | _ => 0

theorem demand_of_call {m : Machine σ} {name : String} {site : Location} {f : Function}
    (hnext : m.next? = some (.call name site)) (hlook : m.look name = .ok f) :
    m.demand = m.calls.depth + 1 := by
  simp only [demand, hnext, hlook]

/-- A step that asks for calls calls a function that exists. -/
theorem exists_of_demand_pos {m : Machine σ} (h : 0 < m.demand) :
    ∃ name site f, m.next? = some (.call name site) ∧ m.look name = .ok f := by
  unfold demand at h
  split at h
  next name site hnext =>
    cases hlook : m.look name with
    | ok f => exact ⟨name, site, f, hnext, hlook⟩
    | error e => rw [hlook] at h; exact absurd h (Nat.lt_irrefl 0)
  next => exact absurd h (Nat.lt_irrefl 0)

end Machine

/-- The step with the machine under another limit. -/
def Step.withLimit (limit : Nat) : Step σ → Step σ
  | .running m => .running (m.withLimit limit)
  | .finished m => .finished (m.withLimit limit)
  | .failed e m => .failed e (m.withLimit limit)

theorem Move.apply_withLimit (m : Machine σ) (limit : Nat) (mv : Move σ) :
    mv.apply (m.withLimit limit) = (mv.apply m).withLimit limit := by
  cases mv with
  | stay a cs => rfl
  | call a cs function scope site => rfl
  | leave =>
      have hcalls : (m.withLimit limit).calls = m.calls := rfl
      simp only [Move.apply, hcalls]
      cases m.calls.pop? with
      | none => rfl
      | some top =>
          simp only [Machine.leaveCall]
          cases top.1.stack.popMany? top.1.function.arity.count <;> rfl
  | fail e a cs => rfl

theorem openCall_of_limits {look : String → Except ScopeError Function} {limit₁ limit₂ depth : Nat}
    {name : String} (h : ∀ f, look name = .ok f → depth < limit₁ ∧ depth < limit₂) :
    (Store.openCall look limit₁ depth name : EStateM Fault (Store σ) _) =
      Store.openCall look limit₂ depth name := by
  funext a
  unfold Store.openCall
  cases hlook : look name with
  | error e => rfl
  | ok f =>
      rcases h f hlook with ⟨h₁, h₂⟩
      simp only [Nat.not_le.2 h₁, Nat.not_le.2 h₂, if_false]

namespace Machine

variable [Sink σ]

/-- A step whose demand is met under two limits is the same under both. -/
theorem step_withLimit {m : Machine σ} {limit : Nat} (hm : m.demand ≤ m.limit)
    (hlimit : m.demand ≤ limit) : (m.withLimit limit).step = m.step.withLimit limit := by
  have hmove : move m.look limit m.calls.depth m.store m.calls.current.cursors =
      move m.look m.limit m.calls.depth m.store m.calls.current.cursors := by
    rcases hcs : m.calls.current.cursors with _ | ⟨⟨_ | ⟨s, rest⟩, role⟩, cs⟩
    · rfl
    · rfl
    · cases s with
      | call name site =>
          have hopen : ∀ f, m.look name = .ok f → m.calls.depth < limit ∧
              m.calls.depth < m.limit := by
            intro f hlook
            have hdemand := demand_of_call (by rw [next?, hcs]; rfl) hlook
            omega
          simp only [move, moveStmt, openCall_of_limits hopen]
      | literal | operator | declare | read | assign | ifThen | ifElse | loop | function | print =>
          rfl
  rw [step_eq m, ← hmove, ← Move.apply_withLimit]
  exact step_eq (m.withLimit limit)

/-- A step whose demand is not met fails, with as many calls as there were. -/
theorem step_of_lt_demand {m : Machine σ} (h : m.limit < m.demand) :
    m.limit ≤ m.calls.depth ∧ ∃ name site m',
      m.step = .failed ⟨.recursionLimit name m.limit, site⟩ m' ∧
        m'.calls.depth = m.calls.depth := by
  rcases exists_of_demand_pos (Nat.zero_lt_of_lt h) with ⟨name, site, f, hnext, hlook⟩
  have hdepth : m.limit ≤ m.calls.depth := by
    have hdemand := demand_of_call hnext hlook
    omega
  rcases exists_step_of_next? m hnext with ⟨cs, hstep⟩
  refine ⟨hdepth, name, site, m.place m.store cs, ?_, depth_place _ _ _⟩
  rw [hstep]
  simp only [moveStmt, Store.openCall, hlook, hdepth, if_true]
  rfl

theorem demand_le_limit {m : Machine σ}
    (h : ∀ name site m', m.step ≠ .failed ⟨.recursionLimit name m.limit, site⟩ m') :
    m.demand ≤ m.limit := by
  rcases Nat.lt_or_ge m.limit m.demand with hlt | hle
  · rcases step_of_lt_demand hlt with ⟨_, name, site, m', hstep, _⟩
    exact absurd hstep (h name site m')
  · exact hle

omit [Sink σ] in
theorem depth_apply_leave (m : Machine σ) :
    (Move.leave.apply m).machine.calls.depth ≤ m.calls.depth := by
  rcases apply_leave_cases m with
    ⟨_, hleave⟩ | ⟨call, callers, hpop, ⟨results, hleave⟩ | ⟨e, hleave⟩⟩
  · rw [hleave]
    exact Nat.le_refl _
  · rw [hleave]
    exact Nat.le_trans (Nat.le_of_eq (CallStack.depth_setCurrent _ _))
      (CallStack.depth_le_of_pop? hpop)
  · rw [hleave]
    exact CallStack.depth_le_of_pop? hpop

/-- A step leads to no more active calls than there are or it asks for. -/
theorem depth_of_step (m : Machine σ) :
    m.step.machine.calls.depth ≤ max m.calls.depth m.demand := by
  rw [step_eq]
  cases hm : move m.look m.limit m.calls.depth m.store m.calls.current.cursors with
  | stay a cs => exact Nat.le_trans (Nat.le_of_eq (depth_place _ _ _)) (Nat.le_max_left _ _)
  | call a cs f scope site =>
      -- Only here a frame is added, and the function has been found.
      rcases openCall_of_move hm with ⟨name, rest, role, outer, hcs, hopen⟩
      have hlook : m.look name = .ok f := (openCall_eq_ok hopen).1
      have hdepth : ((m.place a cs).enterCall f scope site).calls.depth = m.calls.depth + 1 :=
        congrArg (· + 1) (depth_place m a cs)
      rw [demand_of_call (by rw [next?, hcs]; rfl) hlook]
      exact Nat.le_trans (Nat.le_of_eq hdepth) (Nat.le_max_right _ _)
  | leave => exact Nat.le_trans (depth_apply_leave m) (Nat.le_max_left _ _)
  | fail e a cs => exact Nat.le_trans (Nat.le_of_eq (depth_place _ _ _)) (Nat.le_max_left _ _)

/-- A step with which a run ends leads to no more active calls than there are, and to none
    if the program is over. -/
theorem depth_of_outcome? {m m' : Machine σ} {result : Except RuntimeError Unit}
    (h : m.step.outcome? = some (result, m')) :
    m'.calls.depth ≤ m.calls.depth ∧ (result = .ok () → m'.calls.depth = 0) := by
  rw [step_eq] at h
  cases hm : move m.look m.limit m.calls.depth m.store m.calls.current.cursors with
  | stay a cs => rw [hm] at h; cases h
  | call a cs f scope site => rw [hm] at h; cases h
  | leave =>
      have hdepth := depth_apply_leave m
      rw [hm] at h
      rcases apply_leave_cases m with
        ⟨hzero, hleave⟩ | ⟨call, callers, _, ⟨results, hleave⟩ | ⟨e, hleave⟩⟩
      · rw [hleave] at h
        cases h
        exact ⟨Nat.le_refl _, fun _ => hzero⟩
      · rw [hleave] at h; cases h
      · rw [hleave] at h hdepth
        cases h
        exact ⟨hdepth, nofun⟩
  | fail e a cs =>
      rw [hm] at h
      cases h
      exact ⟨Nat.le_of_eq (depth_place _ _ _), nofun⟩

/-- The number of active calls never exceeds the limit. -/
theorem depth_le_limit_of_reaches {m m' : Machine σ} (h : m.Reaches m')
    (hm : m.calls.depth ≤ m.limit) : m'.calls.depth ≤ m'.limit := by
  refine reaches_induction (P := fun m => m.calls.depth ≤ m.limit) ?_ h hm
  intro m m' hm hstep
  have hdepth := depth_of_step m
  have hdemand : m.demand ≤ m.limit := demand_le_limit (by rw [hstep]; exact nofun)
  rw [hstep] at hdepth
  rw [limit_of_step hstep]
  exact Nat.le_trans hdepth (Nat.max_le.2 ⟨hm, hdemand⟩)

/-- The highest demand in at most `n` steps. -/
def peak : Nat → Machine σ → Nat
  | 0, _ => 0
  | n + 1, m =>
      max m.demand <|
        match m.step with
        | .running m' => peak n m'
        | .finished _ => 0
        | .failed _ _ => 0

end Machine

/-- The result is not that too many calls would be active. -/
def WithinLimit {α : Type} (result : Except RuntimeError α) : Prop :=
  ∀ name limit site, result ≠ .error ⟨.recursionLimit name limit, site⟩

theorem WithinLimit.of_map {α β : Type} {result : Except RuntimeError α} {f : α → β}
    (h : WithinLimit (result.map f)) : WithinLimit result := by
  intro name limit site hresult
  exact h name limit site (by rw [hresult]; rfl)

namespace Machine

section Runs

variable [Sink σ] {m m' : Machine σ} {n : Nat} {result : Except RuntimeError Unit}

theorem demand_le_limit_of_runFor (h : runFor (n + 1) m = some (result, m'))
    (hresult : WithinLimit result) : m.demand ≤ m.limit := by
  refine demand_le_limit fun name site m₁ hstep => ?_
  simp only [runFor, hstep] at h
  cases h
  exact hresult name m.limit site rfl

/-- A run that is not cut short is the same under every limit that is not below its peak. -/
theorem runFor_withLimit_of_le (h : runFor n m = some (result, m')) (hresult : WithinLimit result)
    {limit : Nat} (hlimit : peak n m ≤ limit) :
    runFor n (m.withLimit limit) = some (result, m'.withLimit limit) := by
  induction n generalizing m with
  | zero => cases h
  | succ n ih =>
      have hdemand := demand_le_limit_of_runFor h hresult
      simp only [peak] at hlimit
      simp only [runFor] at h ⊢
      rw [step_withLimit hdemand (Nat.le_trans (Nat.le_max_left _ _) hlimit)]
      cases hs : m.step with
      | running m₁ =>
          rw [hs] at h hlimit
          exact ih h (Nat.le_trans (Nat.le_max_right _ _) hlimit)
      | finished m₁ => rw [hs] at h; cases h; rfl
      | failed e m₁ => rw [hs] at h; cases h; rfl

/-- Under a limit below its peak a run is cut short, when that limit is reached. -/
theorem runFor_withLimit_of_lt (h : runFor n m = some (result, m')) (hresult : WithinLimit result)
    {limit : Nat} (hdepth : m.calls.depth ≤ limit) (hlimit : limit < peak n m) :
    ∃ name site last,
      runFor n (m.withLimit limit) = some (.error ⟨.recursionLimit name limit, site⟩, last) ∧
        last.calls.depth = limit ∧ handed n (m.withLimit limit) <+: handed n m := by
  induction n generalizing m with
  | zero => cases h
  | succ n ih =>
      have hhands : (m.withLimit limit).hands? = m.hands? := rfl
      simp only [runFor, handed, hhands]
      by_cases hlt : limit < m.demand
      · -- This is the step that asks for too many calls.
        rcases step_of_lt_demand (m := m.withLimit limit) hlt with
          ⟨hreached, name, site, last, hstep, hlast⟩
        refine ⟨name, site, last, by rw [hstep]; rfl, ?_, ?_⟩
        · exact hlast.trans (Nat.le_antisymm hdepth hreached)
        · rw [hstep, List.prefix_append_right_inj]
          exact List.nil_prefix
      · -- The step is the same under both limits, and is not the last.
        have hmet : m.demand ≤ limit := Nat.le_of_not_lt hlt
        have hnext := depth_of_step m
        rw [step_withLimit (demand_le_limit_of_runFor h hresult) hmet]
        simp only [runFor] at h
        simp only [peak] at hlimit
        cases hs : m.step with
        | running m₁ =>
            rw [hs] at h hlimit hnext
            have hdepth₁ : m₁.calls.depth ≤ limit :=
              Nat.le_trans hnext (Nat.max_le.2 ⟨hdepth, hmet⟩)
            have hlimit₁ : limit < peak n m₁ := by
              simp only [] at hlimit
              omega
            rcases ih h hdepth₁ hlimit₁ with ⟨name, site, last, hrun, hlast, hprinted⟩
            exact ⟨name, site, last, hrun, hlast, (List.prefix_append_right_inj _).2 hprinted⟩
        | finished m₁ =>
            rw [hs] at hlimit
            simp only [] at hlimit
            omega
        | failed e m₁ =>
            rw [hs] at hlimit
            simp only [] at hlimit
            omega

end Runs

theorem load_withLimit (m : Machine σ) (initial : List Integer) (limit : Nat) :
    (m.withLimit limit).load initial =
      (m.load initial).map fun start => start.withLimit limit := by
  simp only [load, withLimit]
  cases globalScope m.program <;> rfl

section Loaded

variable [Sink σ] {m m' : Machine σ} {initial : List Integer} {fuel : Nat}
  {result : Except RuntimeError (List Value)}

/-- The highest demand in a run of at most `fuel` steps. -/
def peakOfRun (fuel : Nat) (initial : List Integer) (m : Machine σ) : Nat :=
  match m.load initial with
  | .error _ => 0
  | .ok start => peak fuel start

theorem run_withLimit_of_le (h : m.run fuel initial = some (result, m'))
    (hresult : WithinLimit result) {limit : Nat} (hlimit : m.peakOfRun fuel initial ≤ limit) :
    (m.withLimit limit).run fuel initial = some (result, m'.withLimit limit) := by
  have hload' := load_withLimit m initial limit
  cases hload : m.load initial with
  | error e =>
      rw [hload] at hload'
      rw [run, hload] at h
      cases h
      rw [run, hload']
      rfl
  | ok start =>
      rw [hload] at hload'
      rcases (run_eq_some_iff hload).1 h with ⟨ended, hrun, rfl⟩
      rw [peakOfRun, hload] at hlimit
      exact (run_eq_some_iff hload').2
        ⟨ended, runFor_withLimit_of_le hrun hresult.of_map hlimit, rfl⟩

theorem run_withLimit_of_lt (h : m.run fuel initial = some (result, m'))
    (hresult : WithinLimit result) {limit : Nat} (hlimit : limit < m.peakOfRun fuel initial) :
    ∃ name site last,
      (m.withLimit limit).run fuel initial =
          some (.error ⟨.recursionLimit name limit, site⟩, last) ∧
        last.calls.depth = limit ∧
        (m.withLimit limit).output fuel initial <+: m.output fuel initial := by
  have hload' := load_withLimit m initial limit
  cases hload : m.load initial with
  | error e =>
      -- Nothing is run, so nothing is asked for.
      rw [peakOfRun, hload] at hlimit
      exact absurd hlimit (Nat.not_lt_zero limit)
  | ok start =>
      rw [hload] at hload'
      rcases (run_eq_some_iff hload).1 h with ⟨ended, hrun, rfl⟩
      rw [peakOfRun, hload] at hlimit
      have hdepth : start.calls.depth ≤ limit := by
        rcases load_eq_ok hload with ⟨scope, _, rfl⟩
        exact Nat.zero_le limit
      rcases runFor_withLimit_of_lt hrun hresult.of_map hdepth hlimit with
        ⟨name, site, last, hcut, hlast, hprinted⟩
      refine ⟨name, site, last, (run_eq_some_iff hload').2 ⟨_, hcut, rfl⟩, hlast, ?_⟩
      rw [output_of_load hload', output_of_load hload]
      exact hprinted

theorem depth_le_limit_of_load {start : Machine σ} (hload : m.load initial = .ok start)
    (h : start.Reaches m') : m'.calls.depth ≤ m.limit := by
  rcases load_eq_ok hload with ⟨scope, _, rfl⟩
  have hlimit : m'.limit = m.limit := by rw [limit_of_reaches h, loaded]
  rw [← hlimit]
  exact depth_le_limit_of_reaches h (Nat.zero_le _)

theorem depth_of_run_ok {values : List Value} (h : m.run fuel initial = some (.ok values, m')) :
    m'.calls.depth = 0 := by
  cases hload : m.load initial with
  | error e => rw [run, hload] at h; cases h
  | ok start =>
      rcases (run_eq_some_iff hload).1 h with ⟨ended, hrun, hended⟩
      rcases runFor_eq_some_iff.1 ⟨fuel, hrun⟩ with ⟨last, _, hend⟩
      cases ended with
      | ok u => exact (depth_of_outcome? hend).2 rfl
      | error e => cases hended

end Loaded

end Machine

/-- The limit is exact and otherwise invisible. A run that ends and is not cut short by the
    limit is the same, up to the limit itself, under every limit that is not below its
    highest demand for calls. Under every lower limit it is cut short when as many calls are
    active as this limit allows, and has printed what the whole run prints first. In every
    state of a run, its last one included, there are at most as many calls as the limit
    allows, and there are none when it succeeds. -/
theorem run_withLimit [Sink σ] (m : Machine σ) (initial : List Integer) :
    (∀ fuel result m', m.run fuel initial = some (result, m') → WithinLimit result →
      (∀ limit, m.peakOfRun fuel initial ≤ limit →
        (m.withLimit limit).run fuel initial = some (result, m'.withLimit limit)) ∧
      ∀ limit, limit < m.peakOfRun fuel initial → ∃ name site last,
        (m.withLimit limit).run fuel initial =
            some (.error ⟨.recursionLimit name limit, site⟩, last) ∧
          last.calls.depth = limit ∧
          (m.withLimit limit).output fuel initial <+: m.output fuel initial ∧
          last.sink = Sink.feed m.sink ((m.withLimit limit).output fuel initial) ∧
          m'.sink = Sink.feed m.sink (m.output fuel initial)) ∧
    (∀ start, m.load initial = .ok start →
      (∀ m', start.Reaches m' → m'.calls.depth ≤ m.limit) ∧
      ∀ fuel result m', Machine.runFor fuel start = some (result, m') →
        m'.calls.depth ≤ m.limit) ∧
    ∀ fuel values m', m.run fuel initial = some (.ok values, m') → m'.calls.depth = 0 := by
  refine ⟨fun fuel result m' hrun hresult => ⟨?_, ?_⟩, fun start hload => ⟨?_, ?_⟩, ?_⟩
  · intro limit hlimit
    exact Machine.run_withLimit_of_le hrun hresult hlimit
  · intro limit hlimit
    rcases Machine.run_withLimit_of_lt hrun hresult hlimit with
      ⟨name, site, last, hcut, hlast, hprinted⟩
    exact ⟨name, site, last, hcut, hlast, hprinted, Machine.sink_of_run hcut,
      Machine.sink_of_run hrun⟩
  · intro m' hreach
    exact Machine.depth_le_limit_of_load hload hreach
  · intro fuel result m' hrun
    rcases Machine.runFor_eq_some_iff.1 ⟨fuel, hrun⟩ with ⟨last, hreach, hend⟩
    exact Nat.le_trans (Machine.depth_of_outcome? hend).1
      (Machine.depth_le_limit_of_load hload hreach)
  · intro fuel values m' hrun
    exact Machine.depth_of_run_ok hrun

/-- A function that prints its argument and calls itself with one less, down to zero. -/
def countdown : Function :=
  ⟨⟨"DOWN", ["n"], [], .one, ⟨1, 1⟩⟩, [.read "n" ⟨2, 1⟩, .print ⟨2, 3⟩, .read "n" ⟨3, 1⟩,
    .literal (.int 0) ⟨3, 3⟩, .operator .gt ⟨3, 5⟩,
    .ifElse [.read "n" ⟨3, 10⟩, .literal (.int 1) ⟨3, 12⟩, .operator .sub ⟨3, 14⟩,
      .call "DOWN" ⟨3, 16⟩] [.literal (.int 0) ⟨3, 26⟩] ⟨3, 7⟩]⟩

/-- A program that counts down from the integer on its stack. -/
def countdownProgram : Program :=
  ⟨[.function countdown.toSignature countdown.body, .call "DOWN" ⟨6, 1⟩], []⟩

/-- Counting down from two takes three calls at once: with three allowed the run is the same
    as with ten, and with two allowed it is cut short after two of its three lines. -/
theorem run_withLimit_countdownProgram :
    ∃ (m m' last : Machine Transcript) (name : String) (site : Location),
      m = .idle countdownProgram 10 .empty ∧
      m.run 100 [2] = some (.ok [.int 0], m') ∧ m.peakOfRun 100 [2] = 3 ∧
      m'.sink.toList = [⟨.int 2, ⟨2, 3⟩⟩, ⟨.int 1, ⟨2, 3⟩⟩, ⟨.int 0, ⟨2, 3⟩⟩] ∧
      (m.withLimit 3).run 100 [2] = some (.ok [.int 0], m'.withLimit 3) ∧
      (m.withLimit 2).run 100 [2] = some (.error ⟨.recursionLimit name 2, site⟩, last) ∧
      last.calls.depth = 2 ∧ last.sink.toList = [⟨.int 2, ⟨2, 3⟩⟩, ⟨.int 1, ⟨2, 3⟩⟩] := by
  have hrun : (Machine.idle countdownProgram 10 Transcript.empty).run 100 [2] =
      some (.ok [.int 0], _) := rfl
  have hpeak : (Machine.idle countdownProgram 10 Transcript.empty).peakOfRun 100 [2] = 3 := rfl
  rcases (run_withLimit _ _).1 _ _ _ hrun nofun with ⟨hsame, hcut⟩
  rcases hcut 2 (by rw [hpeak]; decide) with ⟨name, site, last, hlast, hdepth, _, hsink, _⟩
  refine ⟨_, _, last, name, site, rfl, hrun, hpeak, rfl, hsame 3 (Nat.le_of_eq hpeak), hlast,
    hdepth, ?_⟩
  rw [hsink, Transcript.toList_feed]
  rfl

end StackLang
