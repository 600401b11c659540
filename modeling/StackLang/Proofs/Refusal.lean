import StackLang.Proofs.Output

/-!
# Sinks that refuse

A run is the same whatever its sink is, up to the first value that the sink refuses.

The run with a transcript is the one that is never refused anything, and every other sink
is compared with it. `Machine.withSink` puts another sink into a machine. A step that
prints nothing is the same with either, `Machine.step_withSink`, and a step that prints
leads to the same state if its value is taken: only the sinks of the two differ. If the
value is refused, the step fails there and then, with the reason of the sink, and what has
been handed over is an initial part of what the transcript records:
`Machine.exists_step_of_hands?`.

## Main definitions

* `Sink.Accepts`: A sink takes values one after the other.
* `Machine.withSink`, `Step.withSink`: A machine and a step with another sink.
* `Machine.recording`: A machine with an empty transcript.

## Theorems

* `Sink.accepts_or_refuses`: A sink takes all of the values or refuses a first one.
* `Sink.accepts_of_takes`, `TextSink.accepts`: A text takes every value.
* `Machine.runFor_of_accepts`: A run whose values are all taken.
* `Machine.runFor_of_refuses`: A run with a value that is refused.
* `run_recording`: A run does not depend on its sink until a value is refused.
-/

namespace StackLang

variable {σ τ : Type}

namespace Sink

variable [Sink σ]

/-- The sink takes the values one after the other. -/
def Accepts : σ → List Printed → Prop
  | _, [] => True
  | s, p :: ps => ∃ t, Sink.emit p s = .ok () t ∧ Accepts t ps

theorem feed_cons {s t : σ} {p : Printed} (h : Sink.emit p s = .ok () t) (ps : List Printed) :
    Sink.feed s (p :: ps) = Sink.feed t ps := by
  simp only [Sink.feed, List.foldl_cons, h]

/-- A sink takes all of the values, or there is a first one that it refuses. -/
theorem accepts_or_refuses (s : σ) (ps : List Printed) :
    Accepts s ps ∨ ∃ before p after reason t, ps = before ++ p :: after ∧ Accepts s before ∧
      Sink.emit p (Sink.feed s before) = .error reason t := by
  induction ps generalizing s with
  | nil => exact .inl trivial
  | cons p ps ih =>
      cases hp : Sink.emit p s with
      | error reason t => exact .inr ⟨[], p, ps, reason, t, rfl, trivial, hp⟩
      | ok u t =>
          rcases ih t with htakes | ⟨before, q, after, reason, u, rfl, htakes, hq⟩
          · exact .inl ⟨t, hp, htakes⟩
          · refine .inr ⟨p :: before, q, after, reason, u, rfl, ⟨t, hp, htakes⟩, ?_⟩
            rw [feed_cons hp]
            exact hq

/-- A sink that takes a value in every state takes all values. -/
theorem accepts_of_takes (h : ∀ p (s : σ), ∃ t, Sink.emit p s = .ok () t) (s : σ)
    (ps : List Printed) : Accepts s ps := by
  induction ps generalizing s with
  | nil => trivial
  | cons p ps ih =>
      rcases h p s with ⟨t, ht⟩
      exact ⟨t, ht, ih t⟩

end Sink

theorem TextSink.accepts (t : TextSink) (ps : List Printed) : Sink.Accepts t ps :=
  Sink.accepts_of_takes (fun _ _ => ⟨_, rfl⟩) t ps

namespace Machine

/-- The machine with another sink. -/
def withSink (m : Machine σ) (s : τ) : Machine τ := ⟨m.program, m.limit, m.calls, s⟩

end Machine

/-- The step with another sink. -/
def Step.withSink (s : τ) : Step σ → Step τ
  | .running m => .running (m.withSink s)
  | .finished m => .finished (m.withSink s)
  | .failed e m => .failed e (m.withSink s)

namespace Machine

theorem apply_withSink (m : Machine σ) (s : τ) (mv : Move σ) :
    (mv.mapSink fun _ => s).apply (m.withSink s) = (mv.apply m).withSink s := by
  cases mv with
  | stay a cs => rfl
  | call a cs function scope site => rfl
  | leave =>
      have hcalls : (m.withSink s).calls = m.calls := rfl
      simp only [Move.mapSink, Move.apply, hcalls]
      cases m.calls.pop? with
      | none => rfl
      | some top =>
          simp only [leaveCall]
          cases top.1.stack.popMany? top.1.function.arity.count <;> rfl
  | fail e a cs => rfl

/-- The step at a print of a value: the sink decides whether the run goes on, and nothing
    but the sink depends on it. -/
theorem exists_step_of_hands? {m : Machine σ} {p : Printed} (h : m.hands? = some p) :
    ∃ next : Machine σ, ∀ (τ : Type) [Sink τ] (s : τ), (m.withSink s).step =
      match Sink.emit p s with
      | .ok _ t => .running (next.withSink t)
      | .error reason t => .failed ⟨.outputFailed reason, p.loc⟩ (next.withSink t) := by
  unfold hands? at h
  split at h
  next loc hnext =>
    rcases exists_cursors_of_next? m hnext with ⟨rest, role, cs, hcs⟩
    rcases hstack : m.calls.current.stack with ⟨_ | ⟨v, below⟩⟩
    · rw [hstack] at h
      cases h
    · rw [hstack] at h
      cases h
      refine ⟨m.place { m.store with stack := ⟨below⟩ } (⟨rest, role⟩ :: cs), fun τ _ s => ?_⟩
      have hcalls : (m.withSink s).calls = m.calls := rfl
      rw [step_eq, hcalls, hcs]
      simp only [move, moveStmt, Store.perform, Store.print, Store.pop, store, hcalls, hstack,
        Stack.pop?]
      have hsink : (m.withSink s).sink = s := rfl
      rw [hsink]
      cases Sink.emit ⟨v, loc⟩ s <;> rfl
  next => cases h

variable [Sink σ]

/-- A step that prints nothing is the same with another sink. -/
theorem step_withSink [Sink τ] {m : Machine σ} (h : m.hands? = none) (s : τ) :
    (m.withSink s).step = m.step.withSink s := by
  have hmove : move m.look m.limit m.calls.depth (m.store.mapSink fun _ => s)
      m.calls.current.cursors =
        (move m.look m.limit m.calls.depth m.store m.calls.current.cursors).mapSink
          fun _ => s := by
    rcases hcs : m.calls.current.cursors with _ | ⟨⟨_ | ⟨stmt, rest⟩, role⟩, cs⟩
    · rfl
    · exact moveEnd_mapSink role m.store cs
    · by_cases hprint : ∃ loc, stmt = .print loc
      · -- A print without a value fails before the sink is asked.
        rcases hprint with ⟨loc, rfl⟩
        simp only [hands?, next?, hcs, List.head?_cons, Option.map_eq_none_iff] at h
        rcases hstack : m.calls.current.stack with ⟨_ | ⟨v, below⟩⟩
        · simp only [move, moveStmt, Store.perform, Store.print, Store.pop, store, Store.mapSink,
            hstack, Stack.pop?]
          rfl
        · rw [hstack] at h
          cases h
      · exact moveStmt_mapSink (fun loc hs => absurd ⟨loc, hs⟩ hprint) _ _ _ m.store _
  rw [step_eq m, ← apply_withSink, ← hmove]
  exact step_eq (m.withSink s)

/-- The steps from a print of a value that a transcript records. -/
theorem handed_of_hands? {c next : Machine Transcript} {p : Printed} (h : c.hands? = some p)
    (hstep : c.step = .running next) (n : Nat) : handed (n + 1) c = p :: handed n next := by
  simp only [handed, h, hstep, Option.toList_some, List.singleton_append]

/-- A run whose values are all taken is the run with a transcript. -/
theorem runFor_of_accepts {c : Machine Transcript} {n : Nat} {s : σ}
    (h : Sink.Accepts s (handed n c)) :
    handed n (c.withSink s) = handed n c ∧ runFor n (c.withSink s) =
      (runFor n c).map fun r => (r.1, r.2.withSink (Sink.feed s (handed n c))) := by
  induction n generalizing c s with
  | zero => exact ⟨rfl, rfl⟩
  | succ n ih =>
      have hhands : (c.withSink s).hands? = c.hands? := rfl
      cases hp : c.hands? with
      | none =>
          simp only [handed, hp, Option.toList_none, List.nil_append] at h
          simp only [handed, runFor, hhands, hp, step_withSink hp s, Option.toList_none,
            List.nil_append]
          cases hs : c.step with
          | running c₁ =>
              rw [hs] at h
              exact ih h
          | finished c₁ => exact ⟨rfl, rfl⟩
          | failed e c₁ => exact ⟨rfl, rfl⟩
      | some p =>
          -- The transcript takes the value, and so does the sink.
          rcases exists_step_of_hands? hp with ⟨next, hnext⟩
          have hs : c.step = .running (next.withSink (c.sink.record p)) :=
            hnext Transcript c.sink
          rw [handed_of_hands? hp hs] at h ⊢
          rcases h with ⟨t, ht, htakes⟩
          have hst : (c.withSink s).step = .running (next.withSink t) := by
            rw [hnext σ s, ht]
          rw [Sink.feed_cons ht]
          simp only [handed, runFor, hhands, hp, hs, hst, Option.toList_some,
            List.singleton_append, List.cons.injEq, true_and]
          exact ih htakes

/-- A run with a value that is refused ends there. -/
theorem runFor_of_refuses {c : Machine Transcript} {n : Nat} {s t : σ}
    {before after : List Printed} {p : Printed} {reason : String}
    (h : handed n c = before ++ p :: after) (hbefore : Sink.Accepts s before)
    (hp : Sink.emit p (Sink.feed s before) = .error reason t) :
    handed n (c.withSink s) = before ++ [p] ∧ ∃ last,
      runFor n (c.withSink s) = some (.error ⟨.outputFailed reason, p.loc⟩, last) ∧
        last.sink = t := by
  induction n generalizing c s before with
  | zero => exact absurd h (by simp [handed])
  | succ n ih =>
      have hhands : (c.withSink s).hands? = c.hands? := rfl
      cases hq : c.hands? with
      | none =>
          simp only [handed, hq, Option.toList_none, List.nil_append] at h
          simp only [handed, runFor, hhands, hq, step_withSink hq s, Option.toList_none,
            List.nil_append]
          cases hs : c.step with
          | running c₁ =>
              rw [hs] at h
              exact ih h hbefore hp
          | finished c₁ => rw [hs] at h; exact absurd h (by simp)
          | failed e c₁ => rw [hs] at h; exact absurd h (by simp)
      | some q =>
          rcases exists_step_of_hands? hq with ⟨next, hnext⟩
          have hs : c.step = .running (next.withSink (c.sink.record q)) :=
            hnext Transcript c.sink
          rw [handed_of_hands? hq hs] at h
          cases before with
          | nil =>
              -- This is the value that is refused.
              cases h
              have hfail : (c.withSink s).step =
                  .failed ⟨.outputFailed reason, p.loc⟩ (next.withSink t) := by
                have hp' : Sink.emit p s = .error reason t := hp
                rw [hnext σ s, hp']
              simp only [handed, runFor, hhands, hq, hfail, Option.toList_some, List.append_nil,
                List.nil_append, true_and]
              exact ⟨_, rfl, rfl⟩
          | cons r before =>
              -- The value is taken, and the one that is refused is still to come.
              rw [List.cons_append, List.cons.injEq] at h
              rcases h with ⟨rfl, h⟩
              rcases hbefore with ⟨u, hu, hbefore⟩
              rw [Sink.feed_cons hu] at hp
              have hst : (c.withSink s).step = .running (next.withSink u) := by
                rw [hnext σ s, hu]
              simp only [handed, runFor, hhands, hq, hst, Option.toList_some, List.cons_append,
                List.cons.injEq, true_and]
              exact ih (c := next.withSink (c.sink.record q)) h hbefore hp

omit [Sink σ] in
theorem load_withSink (m : Machine σ) (s : τ) (initial : List Integer) :
    (m.withSink s).load initial = (m.load initial).map fun start => start.withSink s := by
  simp only [load, withSink]
  cases globalScope m.program <;> rfl

section Runs

variable {c : Machine Transcript} {initial : List Integer} {fuel : Nat} {s t : σ}

/-- A run from the start whose values are all taken is the run with a transcript. -/
theorem run_of_accepts (h : Sink.Accepts s (c.output fuel initial)) :
    (c.withSink s).output fuel initial = c.output fuel initial ∧
      (c.withSink s).run fuel initial = (c.run fuel initial).map fun r =>
        (r.1, r.2.withSink (Sink.feed s (c.output fuel initial))) := by
  have hload' := load_withSink c s initial
  cases hload : c.load initial with
  | error e =>
      -- Nothing is run, and the sink is left as it is.
      rw [hload] at hload'
      simp only [output, run, hload', hload]
      exact ⟨rfl, rfl⟩
  | ok start =>
      rw [hload] at hload'
      rw [output_of_load hload] at h ⊢
      rcases runFor_of_accepts h with ⟨hhanded, hrun⟩
      rw [output_of_load hload', run_of_load hload, run_of_load hload', hrun]
      refine ⟨hhanded, ?_⟩
      rw [Option.map_map, Option.map_map]
      rfl

/-- A run from the start with a value that is refused ends there. -/
theorem run_of_refuses {before after : List Printed} {p : Printed} {reason : String}
    (h : c.output fuel initial = before ++ p :: after) (hbefore : Sink.Accepts s before)
    (hp : Sink.emit p (Sink.feed s before) = .error reason t) :
    (c.withSink s).output fuel initial = before ++ [p] ∧ ∃ last,
      (c.withSink s).run fuel initial = some (.error ⟨.outputFailed reason, p.loc⟩, last) ∧
        last.sink = t := by
  have hload' := load_withSink c s initial
  cases hload : c.load initial with
  | error e =>
      -- Nothing has been handed over that could have been refused.
      rw [output, hload] at h
      exact absurd h (by simp)
  | ok start =>
      rw [hload] at hload'
      rw [output_of_load hload] at h
      rcases runFor_of_refuses h hbefore hp with ⟨hhanded, last, hrun, hlast⟩
      refine ⟨(output_of_load hload' fuel).trans hhanded, last, ?_, hlast⟩
      rw [run_of_load hload', hrun]
      rfl

/-- What is handed over is an initial part of what a transcript records. -/
theorem output_withSink_prefix (c : Machine Transcript) (initial : List Integer) (fuel : Nat)
    (s : σ) : (c.withSink s).output fuel initial <+: c.output fuel initial := by
  rcases Sink.accepts_or_refuses s (c.output fuel initial) with
    haccepts | ⟨before, p, after, reason, t, hsplit, hbefore, hp⟩
  · exact ⟨[], by rw [List.append_nil, (run_of_accepts haccepts).1]⟩
  · rw [(run_of_refuses hsplit hbefore hp).1, hsplit]
    exact ⟨after, by rw [List.append_assoc, List.singleton_append]⟩

end Runs

/-- The machine with an empty transcript for its sink. -/
def recording (m : Machine σ) : Machine Transcript := m.withSink Transcript.empty

omit [Sink σ] in
theorem toList_sink_of_advance {m : Machine σ} {initial : List Integer} {n : Nat}
    {start c : Machine Transcript} (hload : m.recording.load initial = .ok start)
    (h : advance n start = some c) : c.sink.toList = m.recording.output n initial := by
  rcases load_eq_ok hload with ⟨scope, _, rfl⟩
  rw [output_of_load hload, sink_of_advance h, Transcript.toList_feed]
  rfl

omit [Sink σ] in
theorem toList_sink_of_run {m : Machine σ} {initial : List Integer} {n : Nat}
    {result : Except RuntimeError (List Value)} {c : Machine Transcript}
    (h : m.recording.run n initial = some (result, c)) :
    c.sink.toList = m.recording.output n initial := by
  rw [sink_of_run h, Transcript.toList_feed]
  rfl

omit [Sink σ] in
/-- With a text the run is the same, and leaves a line for each value that is recorded. -/
theorem run_withSink_text {m : Machine σ} {initial : List Integer} {n : Nat}
    {result : Except RuntimeError (List Value)} {c : Machine Transcript} (text : TextSink)
    (h : m.recording.run n initial = some (result, c)) :
    (m.withSink text).run n initial = some (result, c.withSink (⟨text.written ++
      String.join (c.sink.values.map fun v => v.text ++ "\n")⟩ : TextSink)) := by
  have hwritten : Sink.feed text (m.recording.output n initial) = ⟨text.written ++
      String.join (c.sink.values.map fun v => v.text ++ "\n")⟩ := by
    rw [TextSink.feed_eq, ← toList_sink_of_run h, Transcript.values, List.map_map]
    rfl
  have hrun := (run_of_accepts (TextSink.accepts text (m.recording.output n initial))).2
  rw [h, hwritten] at hrun
  exact hrun

end Machine

/-- A run does not depend on its sink until the sink refuses a value. It is compared with the
    run of the same machine with an empty transcript, which records what is handed to it, in
    every state on the way and at the end. For every number of steps, what the machine hands
    over is an initial part of what is recorded. If its sink takes all that is recorded, then
    this is what it is handed, and the run is the same up to the sink, with its result, its
    stacks and its active calls. If its sink refuses a first value, the run fails at the print
    of this value with the reason of the sink, and the values up to this one have been handed
    over. A text takes every value, so it ends up with a line for each value that is recorded,
    however the run ends. -/
theorem run_recording [Sink σ] (m : Machine σ) (initial : List Integer) (n : Nat) :
    ((∀ start c, m.recording.load initial = .ok start → Machine.advance n start = some c →
        c.sink.toList = m.recording.output n initial) ∧
      ∀ result c, m.recording.run n initial = some (result, c) →
        c.sink.toList = m.recording.output n initial) ∧
    m.output n initial <+: m.recording.output n initial ∧
    (Sink.Accepts m.sink (m.recording.output n initial) →
      m.output n initial = m.recording.output n initial ∧
        m.run n initial = (m.recording.run n initial).map fun r =>
          (r.1, r.2.withSink (Sink.feed m.sink (m.output n initial)))) ∧
    (∀ before p after reason t, m.recording.output n initial = before ++ p :: after →
      Sink.Accepts m.sink before → Sink.emit p (Sink.feed m.sink before) = .error reason t →
        m.output n initial = before ++ [p] ∧ ∃ last,
          m.run n initial = some (.error ⟨.outputFailed reason, p.loc⟩, last) ∧
            last.sink = t) ∧
    ∀ (text : TextSink) result c, m.recording.run n initial = some (result, c) →
      (m.withSink text).run n initial = some (result, c.withSink (⟨text.written ++
        String.join (c.sink.values.map fun v => v.text ++ "\n")⟩ : TextSink)) := by
  refine ⟨⟨fun start c => Machine.toList_sink_of_advance,
    fun result c => Machine.toList_sink_of_run⟩, ?_, ?_, ?_, ?_⟩
  · exact Machine.output_withSink_prefix m.recording initial n m.sink
  · intro haccepts
    rcases Machine.run_of_accepts haccepts with ⟨houtput, hrun⟩
    have hsame : m.output n initial = m.recording.output n initial := houtput
    rw [hsame]
    exact ⟨rfl, hrun⟩
  · intro before p after reason t hsplit hbefore hp
    exact Machine.run_of_refuses hsplit hbefore hp
  · intro text result c hrun
    exact Machine.run_withSink_text text hrun

/-- A program that prints the numbers below three in a loop, and then divides by zero. -/
def printingLoop : Program :=
  ⟨[.declare "k" ⟨1, 1⟩,
    .loop [.read "k" ⟨2, 7⟩, .literal (.int 3) ⟨2, 9⟩, .operator .lt ⟨2, 11⟩]
      [.read "k" ⟨3, 1⟩, .print ⟨3, 3⟩, .read "k" ⟨4, 1⟩, .literal (.int 1) ⟨4, 3⟩,
        .operator .add ⟨4, 5⟩, .assign "k" ⟨4, 7⟩] ⟨2, 1⟩,
    .literal (.int 1) ⟨5, 1⟩, .literal (.int 0) ⟨5, 3⟩, .operator .div ⟨5, 5⟩], ["k"]⟩

/-- With room for two values the third print fails, with room for three the division does, and
    a text holds all three lines by then. -/
theorem run_recording_printingLoop :
    ∃ (last last' : Machine Quota) (last'' : Machine TextSink),
      (Machine.idle printingLoop 0 (Quota.ofRoom 2 "full")).run 100 [] =
        some (.error ⟨.outputFailed "full", ⟨3, 3⟩⟩, last) ∧
      (Machine.idle printingLoop 0 (Quota.ofRoom 2 "full")).output 100 [] =
        [⟨.int 0, ⟨3, 3⟩⟩, ⟨.int 1, ⟨3, 3⟩⟩] ++ [⟨.int 2, ⟨3, 3⟩⟩] ∧
      (Machine.idle printingLoop 0 (Quota.ofRoom 3 "full")).run 100 [] =
        some (.error ⟨.divisionByZero, ⟨5, 5⟩⟩, last') ∧
      (Machine.idle printingLoop 0 TextSink.empty).run 100 [] =
        some (.error ⟨.divisionByZero, ⟨5, 5⟩⟩, last'') ∧
      last''.sink.written = "" ++ String.join ["0\n", "1\n", "2\n"] := by
  rcases run_recording (Machine.idle printingLoop 0 (Quota.ofRoom 2 "full")) [] 100 with
    ⟨_, _, _, hrefused, htext⟩
  rcases hrefused [⟨.int 0, ⟨3, 3⟩⟩, ⟨.int 1, ⟨3, 3⟩⟩] ⟨.int 2, ⟨3, 3⟩⟩ [] "full" _ rfl
    ⟨_, rfl, _, rfl, trivial⟩ rfl with ⟨houtput, last, hrun, _⟩
  rcases run_recording (Machine.idle printingLoop 0 (Quota.ofRoom 3 "full")) [] 100 with
    ⟨_, _, htaken, _⟩
  have hrun' := (htaken ⟨_, rfl, _, rfl, _, rfl, trivial⟩).2
  have hrun'' := htext .empty _ _ rfl
  exact ⟨last, _, _, hrun, houtput, hrun', hrun'', rfl⟩

end StackLang
