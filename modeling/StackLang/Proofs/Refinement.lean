import StackLang.Proofs.BigStep

/-!
# The machine carries out the evaluation

The machine never recurses: a block becomes a cursor, a call becomes a frame. Still
it does what `evalBlock` says, and this module relates the two at any point of a
run.

The relation is `Simulates`. It starts where a machine has a block on top of its
cursors, whatever lies below in the frame and whatever frames lie below that, and
it follows what the evaluation of the block comes to. If the evaluation is done,
the machine reaches the state with the block used up and the store as evaluated,
and nothing else changed. If it fails, the machine fails alike. If the fuel does
not suffice, the machine takes at least as many steps as there was fuel. The last
case is what makes the relation work in both directions: a run that ends has a
length, and with more fuel than that the evaluation cannot be undecided.

The induction is on the fuel. Loops and statements are treated first, each given
the claim for blocks with the fuel at hand; what they share is that simulations
can be chained, `Simulates.andThen`, and prefixed by a step, `Simulates.step`.

## Main definitions

* `Machine.FailsAs`: A machine fails in a given way.
* `Simulates`: The machine follows an evaluation.
* `SimulatesBlocks`: It does so for all blocks, with the given fuel.
* `Machine.runReport`: What a run leaves, if it ends.

## Theorems

* `Simulates.andThen`: Simulations can be chained.
* `Simulates.step`: A step can be put in front.
* `simulates_evalLoop`, `simulates_evalStmt`: The claim for loops and statements,
  given that for blocks.
* `simulatesBlocks_evalBlock`: The claim for blocks.
* `exists_runReport_iff_exists_evaluate`: A run ends in a report exactly when the
  evaluation yields it.
-/

namespace StackLang

variable {σ : Type} [Sink σ]

/-- Some run of the machine ends with the error, and leaves so many calls, this sink
    and this global stack. -/
def Machine.FailsAs (m : Machine σ) (e : RuntimeError) (depth : Nat) (sink : σ)
    (stack : List Value) : Prop :=
  ∃ n m', Machine.runFor n m = some (.error e, m') ∧ m'.calls.depth = depth ∧
    m'.sink = sink ∧ m'.globalStack = stack

/-- The machine follows an evaluation that starts at `m` and, if it is done with the
    store `b`, ends at `resume b`. An undecided evaluation promises `n` steps. -/
def Simulates (n : Nat) (m : Machine σ) (resume : Store σ → Machine σ) :
    Option (Ending σ) → Prop
  | none => Machine.runFor n m = none
  | some (.done b) => m.Reaches (resume b)
  | some (.failed e depth b) => m.FailsAs e depth b.sink (resume b).globalStack

theorem Machine.FailsAs.of_reaches {m m' : Machine σ} {e : RuntimeError} {depth : Nat} {sink : σ}
    {stack : List Value} (hreach : m.Reaches m') (h : m'.FailsAs e depth sink stack) :
    m.FailsAs e depth sink stack := by
  rcases h with ⟨n, m'', hrun, hrest⟩
  rcases Machine.runFor_eq_some_of_reaches hreach hrun with ⟨k, hk⟩
  exact ⟨k, m'', hk, hrest⟩

theorem Machine.FailsAs.of_step {m m' : Machine σ} {e : RuntimeError}
    (h : m.step = .failed e m') : m.FailsAs e m'.calls.depth m'.sink m'.globalStack :=
  ⟨1, m', Machine.runFor_succ_of_outcome 0 (by rw [h]; rfl), rfl, rfl, rfl⟩

theorem Simulates.of_le {n k : Nat} {m : Machine σ} {resume : Store σ → Machine σ}
    {x : Option (Ending σ)} (hle : k ≤ n) (h : Simulates n m resume x) :
    Simulates k m resume x := by
  cases x with
  | none => exact Machine.runFor_eq_none_of_le hle h
  | some ending =>
      cases ending with
      | done b => exact h
      | failed e depth b => exact h

/-- A way that leads to the start of a simulation can be put in front of it. -/
theorem Simulates.of_reaches {n : Nat} {m m' : Machine σ} {resume : Store σ → Machine σ}
    {x : Option (Ending σ)} (hreach : m.Reaches m') (h : Simulates n m' resume x) :
    Simulates n m resume x := by
  cases x with
  | none =>
      rcases hreach with ⟨k, hk⟩
      exact Machine.runFor_eq_none_of_advance hk h (by omega)
  | some ending =>
      cases ending with
      | done b => exact hreach.trans h
      | failed e depth b => exact Machine.FailsAs.of_reaches hreach h

/-- A step in front of a simulation is one more step that an undecided evaluation
    promises. -/
theorem Simulates.step {n : Nat} {m m' : Machine σ} {resume : Store σ → Machine σ}
    {x : Option (Ending σ)} (hstep : m.step = .running m') (h : Simulates n m' resume x) :
    Simulates (n + 1) m resume x := by
  cases x with
  | none =>
      have hone : Machine.advance 1 m = some m' := by
        rw [Machine.advance_succ 0 hstep, Machine.advance]
      exact Machine.runFor_eq_none_of_advance hone h (by omega)
  | some ending =>
      cases ending with
      | done b => exact (Machine.Reaches.single hstep).trans h
      | failed e depth b => exact Machine.FailsAs.of_reaches (Machine.Reaches.single hstep) h

/-- Simulations can be chained, if the two agree about the global stack that a
    failure leaves. -/
theorem Simulates.andThen {n : Nat} {m : Machine σ} {middle resume : Store σ → Machine σ}
    {x : Option (Ending σ)} {next : Store σ → Option (Ending σ)}
    (hglobal : ∀ b, (middle b).globalStack = (resume b).globalStack)
    (hfirst : Simulates n m middle x)
    (hnext : ∀ b, m.Reaches (middle b) → Simulates n (middle b) resume (next b)) :
    Simulates n m resume (Ending.andThen x next) := by
  cases x with
  | none => exact hfirst
  | some ending =>
      cases ending with
      | done b => exact Simulates.of_reaches hfirst (hnext b hfirst)
      | failed e depth b =>
          simp only [Simulates, hglobal] at hfirst
          exact hfirst

theorem Simulates.of_failed {n : Nat} {m m' : Machine σ} {resume : Store σ → Machine σ}
    {e : RuntimeError} {b : Store σ} (hstep : m.step = .failed e m') (hsink : m'.sink = b.sink)
    (hglobal : m'.globalStack = (resume b).globalStack) :
    Simulates n m resume (some (.failed e m'.calls.depth b)) := by
  have hfails := Machine.FailsAs.of_step hstep
  rw [hsink, hglobal] at hfails
  exact hfails

section Placed

open Machine

theorem step_place (m : Machine σ) (a : Store σ) (cs : List Cursor) :
    (m.place a cs).step =
      Move.apply (m.place a cs) (move (m.place a cs).look m.limit m.calls.depth a cs) := by
  rw [step_eq, store_place, current_place, depth_place, limit_place]

omit [Sink σ] in
theorem globalStack_place (m : Machine σ) (a : Store σ) (cs : List Cursor) :
    (m.place a cs).globalStack = if m.calls.depth = 0 then a.stack.toList else m.globalStack := by
  rw [globalStack, global_place]
  by_cases h : m.calls.depth = 0
  · rw [if_pos h, if_pos h]
  · rw [if_neg h, if_neg h, globalStack]

omit [Sink σ] in
theorem globalStack_place_congr (m : Machine σ) (a : Store σ) (cs ds : List Cursor) :
    (m.place a cs).globalStack = (m.place a ds).globalStack := by
  rw [globalStack_place, globalStack_place]

/-- The machine simulates the evaluation `block` of all blocks, with an undecided one
    promising `n` steps. -/
def SimulatesBlocks (n : Nat) (look : String → Except ScopeError Function) (limit : Nat)
    (block : Nat → List Stmt → Store σ → Option (Ending σ)) : Prop :=
  ∀ (m : Machine σ) (a : Store σ) (ss : List Stmt) (role : Role) (cs : List Cursor),
    m.limit = limit → (m.place a (⟨ss, role⟩ :: cs)).look = look →
      Simulates n (m.place a (⟨ss, role⟩ :: cs)) (fun b => m.place b (⟨[], role⟩ :: cs))
        (block m.calls.depth ss a)

variable {n : Nat} {look : String → Except ScopeError Function} {limit : Nat}
  {block : Nat → List Stmt → Store σ → Option (Ending σ)}

theorem simulates_evalLoop (hblocks : SimulatesBlocks n look limit block) (m : Machine σ)
    (hlimit : m.limit = limit) (loop : Loop) (cs : List Cursor) (rounds : Nat)
    (hrounds : rounds ≤ n) (a : Store σ) (hlook : (m.place a (.condition loop :: cs)).look = look) :
    Simulates rounds (m.place a (.condition loop :: cs)) (fun b => m.place b cs)
      (evalLoop (block m.calls.depth) m.calls.depth loop rounds a) := by
  -- Each round has the fuel `n` for its blocks; the number of rounds is what decreases.
  induction rounds generalizing a with
  | zero => rfl
  | succ rounds ih =>
      rw [evalLoop]
      refine Simulates.andThen (fun b => globalStack_place_congr m b (⟨[], .condition loop⟩ :: cs) cs)
        ((hblocks m a loop.condition (.condition loop) cs hlimit hlook).of_le hrounds) ?_
      intro b hb
      have hstep := step_place m b (⟨[], .condition loop⟩ :: cs)
      simp only [move, moveEnd] at hstep
      cases htest : b.popBool with
      | error fault c =>
          rw [htest] at hstep
          simp only [Move.of, Move.apply, place_place] at hstep
          have hdepth := depth_place m c cs
          rw [← hdepth]
          exact Simulates.of_failed hstep rfl rfl
      | ok test c =>
          rw [htest] at hstep
          simp only [Move.of, Move.apply, place_place] at hstep
          cases test with
          | false => exact Reaches.single hstep
          | true =>
              -- One step into the body, the body, and one step back to the condition.
              refine Simulates.step hstep (Simulates.andThen
                (fun d => globalStack_place_congr m d (⟨[], .body loop⟩ :: cs) cs)
                ((hblocks m c loop.body (.body loop) cs hlimit ?_).of_le (by omega)) ?_)
              · -- On the way the condition may have changed the scope, but no function.
                have h := look_of_reaches (hb.trans (Reaches.single hstep))
                exact h.trans hlook
              · intro d hd
                have hback := step_place m d (⟨[], .body loop⟩ :: cs)
                simp only [move, moveEnd, Move.apply, place_place] at hback
                have h := look_of_reaches (((hb.trans (Reaches.single hstep)).trans hd).trans
                  (Reaches.single hback))
                exact (Simulates.step hback (ih (by omega) d (h.trans hlook))).of_le (by omega)

/-- The end of a call: from a simulation of its body to one of the call. -/
theorem simulates_handBack (m : Machine σ) (b : Store σ) (cs : List Cursor) (function : Function)
    (scope : Scope) (site : Location) {m₁ : Machine σ}
    (hm₁ : m₁ = (m.place b cs).enterCall function scope site) {x : Option (Ending σ)}
    (h : Simulates n m₁ (fun c => m₁.place c [⟨[], .sequence⟩]) x) :
    Simulates n m₁ (fun c => m.place c cs)
      (x.map (Ending.handBack function site m.calls.depth b)) := by
  cases x with
  | none => exact h
  | some ending =>
      cases ending with
      | failed e depth c =>
          -- Below the failing call, the caller's frame is as the call left it.
          have hdepth : m₁.calls.depth ≠ 0 := by
            rw [hm₁]
            exact Nat.succ_ne_zero _
          have hcaller : m₁.globalStack = (m.place b cs).globalStack := by
            rw [hm₁]
            rfl
          simp only [Simulates, globalStack_place, if_neg hdepth, hcaller] at h
          simp only [Option.map_some, Ending.handBack, Simulates, globalStack_place]
          exact h
      | done c =>
          -- One step takes the body's cursor away, and the next one leaves the call.
          have hend := step_place m₁ c [⟨[], .sequence⟩]
          simp only [move, moveEnd, Move.apply, place_place] at hend
          have hleave := step_enterCall_nil m b cs c function scope site
          rw [← hm₁] at hleave
          refine Simulates.of_reaches (Reaches.trans h (Reaches.single hend)) ?_
          simp only [Option.map_some, Ending.handBack]
          cases hresults : c.stack.popMany? function.arity.count with
          | some taken =>
              rw [hresults] at hleave
              exact Reaches.single hleave
          | none =>
              rw [hresults] at hleave
              have hdepth := depth_place m ⟨b.scope, b.stack, c.sink⟩ cs
              simp only []
              rw [← hdepth]
              exact Simulates.of_failed hleave rfl rfl

/-- What comes after a statement that is run at `start` and leaves the cursors `cs`
    behind: from every state with these cursors, the machine simulates `next`. -/
structure FollowedBy (n : Nat) (m start : Machine σ) (cs : List Cursor)
    (resume : Store σ → Machine σ) (next : Store σ → Option (Ending σ)) : Prop where
  global : ∀ b, (m.place b cs).globalStack = (resume b).globalStack
  next : ∀ b, start.Reaches (m.place b cs) → Simulates n (m.place b cs) resume (next b)

section FollowedBy

variable {m start : Machine σ} {cs : List Cursor} {resume : Store σ → Machine σ}
  {next : Store σ → Option (Ending σ)}

theorem FollowedBy.failed (h : FollowedBy n m start cs resume next) {e : RuntimeError}
    {b : Store σ} (hstep : start.step = .failed e (m.place b cs)) :
    Simulates (n + 1) start resume
      (Ending.andThen (some (.failed e m.calls.depth b)) next) := by
  have hdepth := depth_place m b cs
  rw [Ending.andThen, ← hdepth]
  exact Simulates.of_failed hstep rfl (h.global b)

theorem FollowedBy.done (h : FollowedBy n m start cs resume next) {b : Store σ}
    (hstep : start.step = .running (m.place b cs)) :
    Simulates (n + 1) start resume (Ending.andThen (some (.done b)) next) :=
  Simulates.step hstep (h.next b (Reaches.single hstep))

/-- A block is entered by a step, and left by another one. -/
theorem FollowedBy.enterBlock (h : FollowedBy n m start cs resume next)
    (hblocks : SimulatesBlocks n look limit block) (hlimit : m.limit = limit)
    (hlook : start.look = look) {b : Store σ} {ss : List Stmt}
    (hstep : start.step = .running (m.place b (.sequence ss :: cs))) :
    Simulates (n + 1) start resume (Ending.andThen (block m.calls.depth ss b) next) := by
  have henter := Reaches.single hstep
  refine Simulates.step hstep (Simulates.andThen
    (fun c => (globalStack_place_congr m c _ cs).trans (h.global c))
    (hblocks m b ss .sequence cs hlimit ((look_of_reaches henter).trans hlook)) ?_)
  intro c hc
  -- The step that removes the cursor of the block is not counted.
  have hend := step_place m c (⟨[], .sequence⟩ :: cs)
  simp only [move, moveEnd, Move.apply, place_place] at hend
  exact Simulates.of_reaches (Reaches.single hend)
    (h.next c (henter.trans (hc.trans (Reaches.single hend))))

theorem FollowedBy.enterLoop (h : FollowedBy n m start cs resume next)
    (hblocks : SimulatesBlocks n look limit block) (hlimit : m.limit = limit)
    (hlook : start.look = look) {a : Store σ} {loop : Loop}
    (hstep : start.step = .running (m.place a (.condition loop :: cs))) :
    Simulates (n + 1) start resume
      (Ending.andThen (evalLoop (block m.calls.depth) m.calls.depth loop n a) next) := by
  have henter := Reaches.single hstep
  refine Simulates.step hstep (Simulates.andThen h.global
    (simulates_evalLoop hblocks m hlimit loop cs n (Nat.le_refl n) a
      ((look_of_reaches henter).trans hlook)) ?_)
  intro b hb
  exact h.next b (henter.trans hb)

theorem FollowedBy.enterCall (h : FollowedBy n m start cs resume next)
    (hblocks : SimulatesBlocks n look limit block) (hlimit : m.limit = limit)
    (hlook : start.look = look) {b : Store σ} {function : Function} {scope : Scope}
    {site : Location}
    (hstep : start.step = .running ((m.place b cs).enterCall function scope site)) :
    Simulates (n + 1) start resume
      (Ending.andThen ((block (m.calls.depth + 1) function.body ⟨scope, .empty, b.sink⟩).map
        (Ending.handBack function site m.calls.depth b)) next) := by
  have henter := Reaches.single hstep
  -- The new frame is where the body is placed, with one more call active.
  have hbody := hblocks ((m.place b cs).enterCall function scope site) ⟨scope, .empty, b.sink⟩
    function.body .sequence [] hlimit ((look_of_reaches henter).trans hlook)
  have hdepth : ((m.place b cs).enterCall function scope site).calls.depth =
      m.calls.depth + 1 := congrArg (· + 1) (depth_place m b cs)
  rw [hdepth] at hbody
  refine Simulates.step hstep (Simulates.andThen h.global
    (simulates_handBack m b cs function scope site rfl hbody) ?_)
  intro c hc
  exact h.next c (henter.trans hc)

end FollowedBy

theorem simulates_evalStmt (hblocks : SimulatesBlocks n look limit block) {m : Machine σ}
    (hlimit : m.limit = limit) {s : Stmt} {rest : List Stmt} {role : Role} {cs : List Cursor}
    {a : Store σ} (hlook : (m.place a (⟨s :: rest, role⟩ :: cs)).look = look)
    {resume : Store σ → Machine σ} {next : Store σ → Option (Ending σ)}
    (h : FollowedBy n m (m.place a (⟨s :: rest, role⟩ :: cs)) (⟨rest, role⟩ :: cs) resume next) :
    Simulates (n + 1) (m.place a (⟨s :: rest, role⟩ :: cs)) resume
      (Ending.andThen (evalStmt look limit block n m.calls.depth s a) next) := by
  have hstep := step_place m a (⟨s :: rest, role⟩ :: cs)
  simp only [move, hlook, hlimit] at hstep
  -- Statements that neither branch nor call are done, or fail, in one step.
  have hbasic : (m.place a (⟨s :: rest, role⟩ :: cs)).step =
      Move.apply (m.place a (⟨s :: rest, role⟩ :: cs)) (Move.of s.loc
        (fun _ => ⟨rest, role⟩ :: cs) (⟨rest, role⟩ :: cs) (Store.perform s a)) →
      Simulates (n + 1) (m.place a (⟨s :: rest, role⟩ :: cs)) resume
        (Ending.andThen (some (Ending.of s.loc m.calls.depth (Store.perform s a))) next) := by
    intro hp
    cases hr : Store.perform s a with
    | ok u b =>
        rw [hr] at hp
        simp only [Move.of, Move.apply, place_place] at hp
        exact h.done hp
    | error fault b =>
        rw [hr] at hp
        simp only [Move.of, Move.apply, place_place] at hp
        exact h.failed hp
  cases s with
  | ifThen yes loc =>
      simp only [moveStmt] at hstep
      simp only [evalStmt]
      cases htest : a.popBool with
      | error fault b =>
          rw [htest] at hstep
          simp only [Move.of, Move.apply, place_place] at hstep
          exact h.failed hstep
      | ok test b =>
          rw [htest] at hstep
          simp only [Move.of, Move.apply, place_place] at hstep
          cases test with
          | true => exact h.enterBlock hblocks hlimit hlook hstep
          | false => exact h.done hstep
  | ifElse yes no loc =>
      simp only [moveStmt] at hstep
      simp only [evalStmt]
      cases htest : a.popBool with
      | error fault b =>
          rw [htest] at hstep
          simp only [Move.of, Move.apply, place_place] at hstep
          exact h.failed hstep
      | ok test b =>
          rw [htest] at hstep
          simp only [Move.of, Move.apply, place_place] at hstep
          cases test with
          | true => exact h.enterBlock hblocks hlimit hlook hstep
          | false => exact h.enterBlock hblocks hlimit hlook hstep
  | loop condition body loc =>
      simp only [moveStmt, Move.apply, place_place] at hstep
      exact h.enterLoop hblocks hlimit hlook hstep
  | call name site =>
      simp only [moveStmt] at hstep
      simp only [evalStmt]
      cases hopen : Store.openCall look limit m.calls.depth name a with
      | error fault b =>
          rw [hopen] at hstep
          simp only [Move.apply, place_place] at hstep
          exact h.failed hstep
      | ok entered b =>
          rw [hopen] at hstep
          simp only [Move.apply, place_place] at hstep
          exact h.enterCall hblocks hlimit hlook hstep
  | literal v loc => exact hbasic hstep
  | operator op loc => exact hbasic hstep
  | declare x loc => exact hbasic hstep
  | read x loc => exact hbasic hstep
  | assign x loc => exact hbasic hstep
  | function signature body => exact hbasic hstep
  | print loc => exact hbasic hstep

theorem simulatesBlocks_evalBlock (look : String → Except ScopeError Function) (limit n : Nat) :
    SimulatesBlocks n look limit
      (evalBlock look limit n : Nat → List Stmt → Store σ → Option (Ending σ)) := by
  -- A statement is simulated with the blocks of the fuel below, and so is what follows it.
  induction n with
  | zero => intro m a ss role cs _ _; rfl
  | succ n ih =>
      intro m a ss role cs hlimit hlook
      cases ss with
      | nil => exact Reaches.refl _
      | cons s rest =>
          rw [evalBlock]
          refine simulates_evalStmt ih hlimit hlook ⟨fun b => globalStack_place_congr m b _ _, ?_⟩
          intro b hb
          exact ih m b rest role cs hlimit ((look_of_reaches hb).trans hlook)

end Placed

namespace Machine

omit [Sink σ] in
/-- The report of an outcome and the machine that is left. -/
def report (result : Except RuntimeError (List Value)) (m : Machine σ) : Report σ :=
  ⟨result, m.globalStack, m.calls.depth, m.sink⟩

/-- The report of a run of at most `fuel` steps. -/
def runReport (fuel : Nat) (initial : List Integer) (m : Machine σ) : Option (Report σ) :=
  (m.run fuel initial).map fun outcome => outcome.2.report outcome.1

variable {m : Machine σ} {scope : Scope}

theorem runReport_eq (initial : List Integer) (hscope : globalScope m.program = .ok scope)
    (fuel : Nat) :
    m.runReport fuel initial = (runFor fuel (m.loaded scope initial)).map fun outcome =>
      outcome.2.report (outcome.1.map fun _ => outcome.2.globalStack) := by
  rw [runReport, run_of_load (load_eq hscope initial), Option.map_map]
  rfl

/-- A simulation of the whole program gives the report of its evaluation. -/
theorem runFor_of_simulates {initial : List Integer} {ending : Ending σ} {n : Nat}
    (h : Simulates n (m.loaded scope initial)
      (fun b => (m.loaded scope initial).place b [⟨[], .sequence⟩]) (some ending)) :
    ∃ k outcome, runFor k (m.loaded scope initial) = some outcome ∧
      outcome.2.report (outcome.1.map fun _ => outcome.2.globalStack) = ending.report := by
  cases ending with
  | done b =>
      -- The last cursor is removed, and a global frame without cursors is the end.
      have hend := step_place (m.loaded scope initial) b [⟨[], .sequence⟩]
      simp only [move, moveEnd, Move.apply, place_place] at hend
      have hfinished : ((m.loaded scope initial).place b []).step =
          .finished ((m.loaded scope initial).place b []) := by
        rw [step_place]
        rfl
      rcases runFor_eq_some_of_reaches (Reaches.trans h (Reaches.single hend))
        (runFor_succ_of_outcome 0 (by rw [hfinished]; rfl)) with ⟨k, hk⟩
      exact ⟨k, _, hk, rfl⟩
  | failed e depth b =>
      rcases h with ⟨k, m', hk, hdepth, hsink, hstack⟩
      refine ⟨k, _, hk, ?_⟩
      simp only [report, hstack, hdepth, hsink, Ending.report]
      rfl

theorem simulates_loaded (initial : List Integer) (hscope : globalScope m.program = .ok scope)
    (n : Nat) :
    Simulates n (m.loaded scope initial)
      (fun b => (m.loaded scope initial).place b [⟨[], .sequence⟩])
      (evalBlock m.program.look m.limit n 0 m.program.statements
        ⟨scope, .ofList (initial.map .int), m.sink⟩) :=
  simulatesBlocks_evalBlock m.program.look m.limit n (m.loaded scope initial) _ _ .sequence []
    rfl (bound_of_globalScope hscope).1

end Machine

/-- A run ends, with a result, a global stack, a number of active calls and a sink,
    exactly when the evaluation of the program does. -/
theorem exists_runReport_iff_exists_evaluate (m : Machine σ) (initial : List Integer)
    {scope : Scope} (hscope : globalScope m.program = .ok scope) (r : Report σ) :
    (∃ fuel, m.runReport fuel initial = some r) ↔
      ∃ fuel, m.program.evaluate m.limit fuel scope initial m.sink = some r := by
  constructor
  · rintro ⟨fuel, hrun⟩
    rw [Machine.runReport_eq initial hscope] at hrun
    rcases Option.map_eq_some_iff.1 hrun with ⟨outcome, houtcome, hr⟩
    refine ⟨fuel, ?_⟩
    have hsim := Machine.simulates_loaded initial hscope fuel
    rw [Program.evaluate]
    cases hx : evalBlock m.program.look m.limit fuel 0 m.program.statements
        ⟨scope, .ofList (initial.map .int), m.sink⟩ with
    | none =>
        -- The run would have taken more steps than it did.
        rw [hx] at hsim
        have hnone : Machine.runFor fuel (m.loaded scope initial) = none := hsim
        rw [houtcome] at hnone
        cases hnone
    | some ending =>
        rw [hx] at hsim
        rcases Machine.runFor_of_simulates hsim with ⟨k, outcome', hk, hreport⟩
        -- Both runs start at the same machine, so they end alike.
        rw [Machine.runFor_unique houtcome hk] at hr
        rw [Option.map_some, ← hreport, hr]
  · rintro ⟨fuel, heval⟩
    rcases Option.map_eq_some_iff.1 heval with ⟨ending, hending, hr⟩
    have hsim := Machine.simulates_loaded initial hscope fuel
    rw [hending] at hsim
    rcases Machine.runFor_of_simulates hsim with ⟨k, outcome, hk, hreport⟩
    refine ⟨k, ?_⟩
    rw [Machine.runReport_eq initial hscope, hk, Option.map_some, hreport, hr]

/-- Adds up the numbers from one to its argument, in a loop. -/
def triangular : Function :=
  ⟨⟨"SUM", ["n"], ["acc"], .one, ⟨1, 1⟩⟩,
    [.declare "acc" ⟨2, 1⟩,
     .loop [.read "n" ⟨3, 7⟩, .literal (.int 0) ⟨3, 9⟩, .operator .gt ⟨3, 11⟩]
       [.read "acc" ⟨4, 1⟩, .read "n" ⟨4, 5⟩, .operator .add ⟨4, 7⟩, .assign "acc" ⟨4, 9⟩,
        .read "n" ⟨5, 1⟩, .literal (.int 1) ⟨5, 3⟩, .operator .sub ⟨5, 5⟩, .assign "n" ⟨5, 7⟩]
       ⟨3, 1⟩,
     .read "acc" ⟨6, 1⟩]⟩

/-- Calls it in a branch and prints the sum. -/
def triangularProgram : Program :=
  ⟨[.function triangular.toSignature triangular.body, .literal (.bool true) ⟨8, 1⟩,
    .ifThen [.call "SUM" ⟨8, 9⟩, .print ⟨8, 13⟩] ⟨8, 6⟩], []⟩

theorem runReport_triangularProgram :
    globalScope triangularProgram = .ok ⟨[("SUM", .function triangular)]⟩ ∧
      ∃ fuel, (Machine.idle triangularProgram 1 Transcript.empty).runReport fuel [7, 3] =
        some ⟨.ok [.int 7], [.int 7], 0, ⟨[⟨.int 6, ⟨8, 13⟩⟩]⟩⟩ :=
  ⟨rfl, (exists_runReport_iff_exists_evaluate (Machine.idle triangularProgram 1 Transcript.empty)
    [7, 3] rfl _).2 ⟨40, rfl⟩⟩

end StackLang
