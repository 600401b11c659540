import StackLang.Proofs.Bindings
import StackLang.Proofs.Sinks

/-!
# Output

What a run hands to its sink.

Of all steps only a print reaches the sink, and it hands over the topmost value. So
the values that are handed over can be read off the states of a run before anything
is known about the sink: `Machine.handed`. The sink of the state in which a run ends
is the sink of its start, to which these values have been handed one after the other:
`Machine.sink_of_run`. This holds of every sink, also of one that refuses a value,
which is then the last.

## Main definitions

* `Sink.feed`: A sink to which values have been handed.
* `Machine.hands?`: The value that the next step hands over.
* `Machine.handed`: The values that are handed over in so many steps.
* `Machine.output`: The values that are handed over in a run.

## Theorems

* `Transcript.toList_feed`: A transcript keeps what it is handed.
* `TextSink.feed_eq`: A text gets a line for each value.
* `Machine.sink_of_step`: What a step does to the sink.
* `Machine.sink_of_advance`: What the sink is in the states on the way.
* `Machine.sink_of_runFor`, `Machine.sink_of_run`: What a run does to the sink.
-/

namespace StackLang

variable {σ : Type}

/-- The sink to which values have been handed one after the other, taken or refused. -/
def Sink.feed [Sink σ] (s : σ) (ps : List Printed) : σ :=
  ps.foldl (fun s p =>
    match Sink.emit p s with
    | .ok _ t => t
    | .error _ t => t) s

theorem Sink.feed_append [Sink σ] (s : σ) (ps qs : List Printed) :
    Sink.feed s (ps ++ qs) = Sink.feed (Sink.feed s ps) qs :=
  List.foldl_append

theorem Transcript.toList_feed (t : Transcript) (ps : List Printed) :
    (Sink.feed t ps).toList = t.toList ++ ps := by
  induction ps generalizing t with
  | nil => exact (List.append_nil _).symm
  | cons p ps ih =>
      have hrecord : (Sink.feed (t.record p) ps).toList = (t.record p).toList ++ ps := ih _
      rw [Transcript.toList_record, List.append_assoc] at hrecord
      exact hrecord

theorem TextSink.feed_eq (t : TextSink) (ps : List Printed) :
    Sink.feed t ps = ⟨t.written ++ String.join (ps.map Printed.line)⟩ := by
  induction ps generalizing t with
  | nil => exact congrArg TextSink.mk String.append_empty.symm
  | cons p ps ih =>
      have hline : Sink.feed (⟨t.written ++ p.line⟩ : TextSink) ps =
          ⟨t.written ++ p.line ++ String.join (ps.map Printed.line)⟩ := ih _
      rw [String.append_assoc, ← String.join_cons] at hline
      exact hline

namespace Machine

/-- The value that the next step hands to the sink, if it prints and there is one. -/
def hands? (m : Machine σ) : Option Printed :=
  match m.next? with
  | some (.print loc) => m.calls.current.stack.peek?.map fun v => ⟨v, loc⟩
  | _ => none

theorem hands?_eq_none {m : Machine σ} (h : ∀ loc, m.next? ≠ some (.print loc)) :
    m.hands? = none := by
  unfold hands?
  split
  next loc hnext => exact absurd hnext (h loc)
  next => rfl

/-- A move that does not look at the sink leaves it as it is. -/
theorem sink_apply_mapSink {τ : Type} (m : Machine σ) (mv : Move τ) :
    ((mv.mapSink fun _ => m.sink).apply m).machine.sink = m.sink := by
  cases mv with
  | stay a cs => rfl
  | call a cs function scope site => rfl
  | leave =>
      rw [Move.mapSink]
      rcases apply_leave_cases m with
        ⟨_, hleave⟩ | ⟨call, callers, _, ⟨results, hleave⟩ | ⟨e, hleave⟩⟩
      · rw [hleave]; rfl
      · rw [hleave]; rfl
      · rw [hleave]; rfl
  | fail e a cs => rfl

variable [Sink σ]

/-- The values that are handed to the sink in at most `n` steps. -/
def handed : Nat → Machine σ → List Printed
  | 0, _ => []
  | n + 1, m =>
      m.hands?.toList ++
        match m.step with
        | .running m' => handed n m'
        | .finished _ => []
        | .failed _ _ => []

/-- Without a print the move is one that is made with any other sink. -/
theorem exists_move_of_ne {m : Machine σ} (h : ∀ loc, m.next? ≠ some (.print loc)) :
    ∃ mv : Move Transcript,
      move m.look m.limit m.calls.depth m.store m.calls.current.cursors =
        mv.mapSink fun _ => m.sink := by
  refine ⟨move m.look m.limit m.calls.depth (m.store.mapSink fun _ => .empty)
    m.calls.current.cursors, ?_⟩
  rcases hcs : m.calls.current.cursors with _ | ⟨⟨_ | ⟨s, rest⟩, role⟩, cs⟩
  · rfl
  · exact moveEnd_mapSink (f := fun _ : Transcript => m.sink) role
      (m.store.mapSink fun _ => .empty) cs
  · have hprint : ∀ loc, s = .print loc → Sink.Hom fun _ : Transcript => m.sink := by
      intro loc hs
      exact absurd (by rw [next?, hcs, hs]; rfl) (h loc)
    exact moveStmt_mapSink hprint _ _ _ (m.store.mapSink fun _ => .empty) _

theorem sink_of_step_of_ne {m : Machine σ} (h : ∀ loc, m.next? ≠ some (.print loc)) :
    m.step.machine.sink = m.sink := by
  rcases exists_move_of_ne h with ⟨mv, hmove⟩
  rw [step_eq, hmove]
  exact sink_apply_mapSink m mv

theorem sink_of_step_of_print {m : Machine σ} {loc : Location}
    (h : m.next? = some (.print loc)) :
    m.step.machine.sink = Sink.feed m.sink m.hands?.toList := by
  rcases exists_step_of_next? m h with ⟨cs, hstep⟩
  rw [hstep]
  simp only [moveStmt, Store.perform, Store.print, Store.pop, store, hands?, h]
  rcases m.calls.current.stack with ⟨_ | ⟨v, below⟩⟩
  · rfl
  · simp only [Stack.pop?, Stack.peek?, List.head?_cons, Option.map_some, Option.toList_some,
      Sink.feed, List.foldl_cons, List.foldl_nil]
    cases Sink.emit ⟨v, loc⟩ m.sink <;> rfl

/-- What a step does to the sink. -/
theorem sink_of_step (m : Machine σ) :
    m.step.machine.sink = Sink.feed m.sink m.hands?.toList := by
  by_cases h : ∃ loc, m.next? = some (.print loc)
  · rcases h with ⟨loc, hloc⟩
    exact sink_of_step_of_print hloc
  · have hne : ∀ loc, m.next? ≠ some (.print loc) := fun loc hloc => h ⟨loc, hloc⟩
    rw [sink_of_step_of_ne hne, hands?_eq_none hne]
    rfl

/-- What the sink is in the states on the way. -/
theorem sink_of_advance {m m' : Machine σ} {n : Nat} (h : advance n m = some m') :
    m'.sink = Sink.feed m.sink (handed n m) := by
  induction n generalizing m with
  | zero => cases h; rfl
  | succ n ih =>
      have hsink := sink_of_step m
      simp only [advance] at h
      simp only [handed]
      cases hs : m.step with
      | running m₁ =>
          rw [hs] at h hsink
          rw [Sink.feed_append, ← hsink]
          exact ih h
      | finished m₁ => rw [hs] at h; cases h
      | failed e m₁ => rw [hs] at h; cases h

/-- What a run does to the sink. -/
theorem sink_of_runFor {m m' : Machine σ} {n : Nat} {result : Except RuntimeError Unit}
    (h : runFor n m = some (result, m')) : m'.sink = Sink.feed m.sink (handed n m) := by
  induction n generalizing m with
  | zero => cases h
  | succ n ih =>
      have hsink := sink_of_step m
      simp only [runFor] at h
      simp only [handed]
      cases hs : m.step with
      | running m₁ =>
          rw [hs] at h hsink
          rw [Sink.feed_append, ← hsink]
          exact ih h
      | finished m₁ =>
          rw [hs] at h hsink
          cases h
          rw [List.append_nil]
          exact hsink
      | failed e m₁ =>
          rw [hs] at h hsink
          cases h
          rw [List.append_nil]
          exact hsink

/-- The values that are handed to the sink in a run of at most `fuel` steps. -/
def output (fuel : Nat) (initial : List Integer) (m : Machine σ) : List Printed :=
  match m.load initial with
  | .error _ => []
  | .ok start => handed fuel start

theorem output_of_load {m start : Machine σ} {initial : List Integer}
    (h : m.load initial = .ok start) (fuel : Nat) : m.output fuel initial = handed fuel start := by
  rw [output, h]

/-- What a run does to the sink, from its start. -/
theorem sink_of_run {m m' : Machine σ} {fuel : Nat} {initial : List Integer}
    {result : Except RuntimeError (List Value)} (h : m.run fuel initial = some (result, m')) :
    m'.sink = Sink.feed m.sink (m.output fuel initial) := by
  cases hload : m.load initial with
  | error e =>
      -- Nothing has been run and the machine is as it was.
      rw [run, hload] at h
      cases h
      rw [output, hload]
      rfl
  | ok start =>
      rcases (run_eq_some_iff hload).1 h with ⟨ended, hrun, _⟩
      rcases load_eq_ok hload with ⟨scope, _, rfl⟩
      rw [output_of_load hload, sink_of_runFor hrun, loaded]

end Machine

end StackLang
