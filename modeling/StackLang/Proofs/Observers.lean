import StackLang.Proofs.Progress

/-!
# Observers

Watching a parse changes nothing but the one who watches.

An observer is a state and a way to take in an event, and a parse hands it one event after
the other. Two observers can be compared when a function takes the states of one to those of
the other and it makes no difference whether an event is taken in before or after:
`Reading.run_mapSeen` says that their parses then differ in nothing else. Every observer can
be compared with the one that sees nothing, so none has an influence. And the observer that
writes down all events can be compared with every other: what any observer makes of a call
is what it makes of the list of its events, `Parser.parseWith_eq`.

## Main definitions

* `Reading.mapSeen`: A parse with another state of the observer.
* `record`: The observer that writes down all events.
* `Parser.events`: The events of a call.
* `Parser.afterWith`: A parser and its observer after so many calls.

## Theorems

* `Reading.run_mapSeen`: Observers that can be compared see the same parse.
* `Parser.parseWith_eq`: A call with an observer.
* `Parser.afterWith_eq`: Any number of calls with an observer.
-/

namespace StackLang

variable {σ τ : Type}

/-- The state of a parse, seen by another observer. -/
def Reading.mapSeen (f : σ → τ) (r : Reading σ) : Reading τ :=
  ⟨r.parser, r.enclosing, r.block, f r.seen⟩

/-- A step, seen by another observer. -/
def ReadingStep.mapSeen (f : σ → τ) : ReadingStep σ → ReadingStep τ
  | .more r => .more (r.mapSeen f)
  | .done result p seen => .done result p (f seen)

namespace Reading

variable {observe : σ → Event → σ} {observe' : τ → Event → τ} {f : σ → τ}

theorem abandon_mapSeen (hf : ∀ s e, f (observe s e) = observe' (f s) e) (e : ParseError)
    (p : Parser) (enclosing : List OpenConstruct) (seen : σ) :
    abandon observe' e p enclosing (f seen) = (abandon observe e p enclosing seen).mapSeen f := by
  have hfold : enclosing.foldl (fun s o => observe' s (.leave o.rule false)) (f seen) =
      f (enclosing.foldl (fun s o => observe s (.leave o.rule false)) seen) := by
    induction enclosing generalizing seen with
    | nil => rfl
    | cons o outer ih => rw [List.foldl_cons, List.foldl_cons, ← hf, ih]
  rw [abandon, hfold]
  rfl

theorem start_mapSeen (hf : ∀ s e, f (observe s e) = observe' (f s) e) (r : Reading σ)
    (t : Token) (ts : List Token) :
    (r.mapSeen f).start observe' t ts = (r.start observe t ts).mapSeen f := by
  simp only [start, mapSeen, ← hf]
  cases begin? t with
  | none => exact abandon_mapSeen hf _ _ _ _
  | some x =>
      simp only []
      cases x { r.parser with ahead := ts } with
      | error e q => exact abandon_mapSeen hf _ _ _ _
      | ok progress q => cases progress <;> rfl

theorem close_mapSeen (hf : ∀ s e, f (observe s e) = observe' (f s) e) (r : Reading σ)
    (o : OpenConstruct) (outer : List OpenConstruct) (x : ParseM Progress) (ts : List Token) :
    (r.mapSeen f).close observe' o outer x ts = (r.close observe o outer x ts).mapSeen f := by
  simp only [close, mapSeen, ← hf]
  cases x { r.parser with ahead := ts } with
  | error e q => exact abandon_mapSeen hf _ _ _ _
  | ok progress q => cases progress <;> rfl

theorem step_mapSeen (hf : ∀ s e, f (observe s e) = observe' (f s) e) (r : Reading σ) :
    (r.mapSeen f).step observe' = (r.step observe).mapSeen f := by
  rcases r with ⟨⟨_ | ⟨t, ts⟩, stop, n⟩, _ | ⟨o, outer⟩, block, seen⟩
  · rfl
  · exact abandon_mapSeen hf _ _ _ _
  · exact start_mapSeen hf _ t ts
  · simp only [step, mapSeen]
    cases o.construct.close? o.opener.loc block.reverse t with
    | none => exact start_mapSeen hf ⟨_, o :: outer, block, seen⟩ t ts
    | some x => exact close_mapSeen hf ⟨_, o :: outer, block, seen⟩ o outer x ts

/-- Observers whose states correspond see the same parse. -/
theorem run_mapSeen (hf : ∀ s e, f (observe s e) = observe' (f s) e) (r : Reading σ) :
    (r.mapSeen f).run observe' =
      ((r.run observe).1, (r.run observe).2.1, f (r.run observe).2.2) := by
  fun_induction run observe r with
  | case1 r s hstep ih =>
      have hs := step_mapSeen hf r
      rw [hstep] at hs
      rw [run_of_step hs]
      exact ih
  | case2 r result p seen hstep =>
      have hs := step_mapSeen hf r
      rw [hstep] at hs
      exact run_of_done hs

end Reading

/-- The observer that writes down all events. -/
def record (es : List Event) (e : Event) : List Event := es ++ [e]

namespace Parser

/-- The events of a call. -/
def events (p : Parser) : List Event := (p.parseWith record []).2.2

/-- A parser and its observer after so many calls, whatever they have returned. -/
def afterWith (observe : σ → Event → σ) (p : Parser) (seen : σ) : Nat → Parser × σ
  | 0 => (p, seen)
  | n + 1 => ((afterWith observe p seen n).1.parseWith observe (afterWith observe p seen n).2).2

/-- What a call with an observer gives, from its steps. -/
theorem parseWith_run (observe : σ → Event → σ) (p : Parser) (seen : σ) :
    p.parseWith observe seen =
      ((conclude (Reading.run observe ⟨p, [], [], seen⟩).1
          (Reading.run observe ⟨p, [], [], seen⟩).2.1).1,
        (conclude (Reading.run observe ⟨p, [], [], seen⟩).1
          (Reading.run observe ⟨p, [], [], seen⟩).2.1).2,
        (Reading.run observe ⟨p, [], [], seen⟩).2.2) := by
  rw [parseWith]
  rcases Reading.run observe ⟨p, [], [], seen⟩ with ⟨_ | _, q, s⟩ <;> rfl

theorem events_eq (p : Parser) : p.events = (Reading.run record ⟨p, [], [], []⟩).2.2 := by
  rw [events, parseWith_run]

/-- The parse that nobody sees is the one that is written down. -/
theorem run_unobserved (p : Parser) :
    Reading.run unobserved (.ofParser p) =
      ((Reading.run record ⟨p, [], [], []⟩).1, (Reading.run record ⟨p, [], [], []⟩).2.1, ()) :=
  Reading.run_mapSeen (f := fun _ => ()) (fun _ _ => rfl) ⟨p, [], [], []⟩

/-- An observer has no influence on a call, and learns of its events only. -/
theorem parseWith_eq (observe : σ → Event → σ) (p : Parser) (seen : σ) :
    p.parseWith observe seen = (p.parse.1, p.parse.2, p.events.foldl observe seen) := by
  -- Its state stands in for the list of the events so far.
  have hrecord : ∀ es e, (record es e).foldl observe seen = observe (es.foldl observe seen) e := by
    intro es e
    rw [record, List.foldl_append, List.foldl_cons, List.foldl_nil]
  have hfold : Reading.run observe ⟨p, [], [], seen⟩ = _ :=
    Reading.run_mapSeen (f := fun es => es.foldl observe seen) hrecord ⟨p, [], [], []⟩
  rw [parseWith_run, hfold, parse_eq, run_unobserved, events_eq]

theorem afterWith_eq (observe : σ → Event → σ) (p : Parser) (seen : σ) (n : Nat) :
    (p.afterWith observe seen n).1 = p.after n ∧
      (p.afterWith observe seen (n + 1)).2 =
        (p.after n).events.foldl observe (p.afterWith observe seen n).2 := by
  have hparser : (p.afterWith observe seen n).1 = p.after n := by
    induction n with
    | zero => rfl
    | succ n ih => rw [afterWith, after, parseWith_eq, ih]
  refine ⟨hparser, ?_⟩
  rw [afterWith, parseWith_eq, hparser]

end Parser

end StackLang
