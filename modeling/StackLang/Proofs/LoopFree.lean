import Mathlib.Algebra.Order.BigOperators.Group.List
import Mathlib.Algebra.Order.Group.Nat
import StackLang.Proofs.Bindings
import StackLang.Proofs.Tree

/-!
# Programs without loops

A program without loops ends, however its functions call themselves or one another.

Recursion by itself would not end: a body can be run again while it is being run, and a
call that returns makes room for the next. What bounds it is the limit on active calls.
The price of a call is therefore a number that depends on how many further calls may be
active: `Program.callCost`. Where none may, a call costs no more than being refused. Where
one more may, it costs the most expensive bodies, with the calls in them at the price of
one less. Given the price of a call, the price of a block is a sum over its statements,
since without loops no statement is run twice in one frame: `blockCost`.

What remains to be done in a machine is a list of cursors for every frame, its
`Machine.agenda`. A step changes it in one of three ways, `Machine.agenda_of_step`, and
each of them lowers the price of the whole: a statement is worth at least one step more
than what it leads to, and a call more than the body it starts. So a run ends after as
many steps as its agenda costs at the start, which depends on the program and the limit
and on nothing else.

## Main definitions

* `LoopFree`, `Program.LoopFree`: No loops anywhere, bodies of functions included.
* `Machine.agenda`: What remains to be done, frame by frame.
* `Stmt.cost`, `blockCost`: The price of a statement and of a block.
* `Program.callCost`: The price of a call.
* `Program.agendaCost`: The price of what remains to be done.
* `Program.stepBound`: The price of a whole run.

## Theorems

* `Machine.agenda_of_step`: How a step changes what remains to be done.
* `cost_of_move_stay`, `cost_of_move_call`: What a move costs in its own frame.
* `Program.agendaCost_of_step`: A step lowers the price.
* `Machine.exists_runFor_of_plain`: A run ends within its price.
* `exists_run_of_loopFree`: So does every run of a program without loops.
-/

namespace StackLang

variable {σ : Type}

/-- Whether a statement is a loop. -/
def Stmt.isLoop : Stmt → Bool
  | .loop _ _ _ => true
  | .literal _ _ | .operator _ _ | .declare _ _ | .read _ _ | .assign _ _ | .ifThen _ _
  | .ifElse _ _ _ | .function _ _ | .call _ _ | .print _ => false

/-- There is no loop in a block, nor in what its statements enclose. -/
def LoopFree (ss : List Stmt) : Prop := ∀ s ∈ preorder true ss, s.isLoop = false

instance (ss : List Stmt) : Decidable (LoopFree ss) :=
  inferInstanceAs (Decidable (∀ s ∈ preorder true ss, s.isLoop = false))

/-- There is no loop in a program, nor in its functions. -/
def Program.LoopFree (p : Program) : Prop := StackLang.LoopFree p.statements

instance (p : Program) : Decidable p.LoopFree :=
  inferInstanceAs (Decidable (StackLang.LoopFree p.statements))

section LoopFree

variable {s : Stmt} {ss block other : List Stmt} {loc : Location}

theorem loopFree_cons :
    LoopFree (s :: ss) ↔
      s.isLoop = false ∧ (∀ t ∈ s.enclosed true, t.isLoop = false) ∧ LoopFree ss := by
  simp only [LoopFree, preorder_cons, List.forall_mem_cons, List.forall_mem_append]

theorem LoopFree.tail (h : LoopFree (s :: ss)) : LoopFree ss := (loopFree_cons.1 h).2.2

theorem LoopFree.of_ifThen (h : LoopFree (.ifThen block loc :: ss)) : LoopFree block := by
  have henclosed := (loopFree_cons.1 h).2.1
  rwa [Stmt.enclosed] at henclosed

theorem LoopFree.of_ifElse (h : LoopFree (.ifElse block other loc :: ss)) :
    LoopFree block ∧ LoopFree other := by
  have henclosed := (loopFree_cons.1 h).2.1
  rwa [Stmt.enclosed, List.forall_mem_append] at henclosed

/-- The bodies of a program without loops have none. -/
theorem Program.LoopFree.body {p : Program} (h : p.LoopFree) {f : Function}
    (hf : f ∈ p.functions) : StackLang.LoopFree f.body := by
  intro t ht
  refine h t (mem_preorder_iff.2 (.inr ⟨_, mem_functionsIn.1 hf, ?_⟩))
  rwa [Stmt.enclosed, if_pos rfl]

end LoopFree

section Agenda

/-- What remains to be done in each frame, the current one first. -/
def CallStack.agenda (c : CallStack) : List (List Cursor) :=
  c.calls.map (fun call => call.cursors) ++ [c.global.cursors]

/-- What remains to be done in each frame, the current one first. -/
def Machine.agenda (m : Machine σ) : List (List Cursor) := m.calls.agenda

theorem CallStack.length_agenda (c : CallStack) : c.agenda.length = c.depth + 1 := by
  rw [agenda, List.length_append, List.length_map, c.depth_eq]
  rfl

/-- What remains to be done in the current frame comes first. -/
theorem CallStack.agenda_eq (c : CallStack) : c.agenda = c.current.cursors :: c.agenda.tail := by
  rcases c with ⟨global, _ | ⟨call, outer⟩, depth, h⟩ <;> rfl

/-- A change of the current frame leaves what remains to be done in the others. -/
theorem CallStack.agenda_setCurrent (c : CallStack) (f : Frame) :
    (c.setCurrent f).agenda = f.cursors :: c.agenda.tail := by
  rcases c with ⟨global, _ | ⟨call, outer⟩, depth, h⟩ <;> rfl

theorem CallStack.agenda_of_pop? {c callers : CallStack} {call : CallFrame}
    (h : c.pop? = some (call, callers)) : c.agenda = c.current.cursors :: callers.agenda := by
  rcases c with ⟨global, _ | ⟨top, outer⟩, depth, hdepth⟩
  · cases h
  · cases h
    rfl

namespace Machine

variable {m m' : Machine σ}

theorem agenda_place (m : Machine σ) (a : Store σ) (cs : List Cursor) :
    (m.place a cs).agenda = cs :: m.agenda.tail :=
  CallStack.agenda_setCurrent m.calls _

theorem agenda_enterCall (m : Machine σ) (f : Function) (scope : Scope) (site : Location) :
    (m.enterCall f scope site).agenda = [.sequence f.body] :: m.agenda := rfl

theorem agenda_setStack (m : Machine σ) (s : Stack) : (m.setStack s).agenda = m.agenda := by
  rw [setStack_eq_place, agenda_place]
  exact m.calls.agenda_eq.symm

/-- A step goes on in the same frame, or starts the body of a function above it, or drops the
    frame. -/
theorem agenda_of_step [Sink σ] (h : m.step = .running m') :
    (∃ a cs, move m.look m.limit m.calls.depth m.store m.calls.current.cursors = .stay a cs ∧
      m'.agenda = cs :: m.agenda.tail) ∨
    (∃ a cs f scope site,
      move m.look m.limit m.calls.depth m.store m.calls.current.cursors =
        .call a cs f scope site ∧ m'.agenda = [.sequence f.body] :: cs :: m.agenda.tail) ∨
    m'.agenda = m.agenda.tail := by
  rw [step_eq] at h
  cases hm : move m.look m.limit m.calls.depth m.store m.calls.current.cursors with
  | stay a cs =>
      rw [hm] at h
      cases h
      exact .inl ⟨a, cs, rfl, agenda_place m a cs⟩
  | call a cs f scope site =>
      rw [hm] at h
      cases h
      refine .inr (.inl ⟨a, cs, f, scope, site, rfl, ?_⟩)
      rw [agenda_enterCall, agenda_place]
  | leave =>
      rw [hm] at h
      rcases apply_leave_cases m with
        ⟨_, hleave⟩ | ⟨call, callers, hpop, ⟨results, hleave⟩ | ⟨e, hleave⟩⟩
      · rw [hleave] at h
        cases h
      · rw [hleave] at h
        cases h
        rw [agenda_setStack, agenda, agenda, CallStack.agenda_of_pop? hpop, List.tail_cons]
        exact .inr (.inr rfl)
      · rw [hleave] at h
        cases h
  | fail e a cs => rw [hm] at h; cases h

end Machine

end Agenda

mutual

/-- The price of a statement at a given price of a call: one step, and what it leads to. -/
def Stmt.cost (call : Nat) : Stmt → Nat
  | .ifThen block _ => blockCost call block + 1
  | .ifElse block other _ => max (blockCost call block) (blockCost call other) + 1
  | .call _ _ => call + 1
  | .literal _ _ | .operator _ _ | .declare _ _ | .read _ _ | .assign _ _ | .loop _ _ _
  | .function _ _ | .print _ => 1

/-- The price of a block: that of its statements, and one step for its end. -/
def blockCost (call : Nat) : List Stmt → Nat
  | [] => 1
  | s :: ss => s.cost call + blockCost call ss

end

/-- The price of what remains to be done in a frame. -/
def cursorsCost (call : Nat) : List Cursor → Nat
  | [] => 0
  | c :: cs => blockCost call c.rest + cursorsCost call cs

namespace Program

/-- The price of a call when so many calls more may be active: the bodies that it may run, and
    one step for its return. A call that is refused leads to nothing. -/
def callCost (p : Program) : Nat → Nat
  | 0 => 0
  | calls + 1 => (p.functions.map fun f => blockCost (callCost p calls) f.body).sum + 1

/-- The price of what remains to be done, where each frame has those after it below it: one
    step for its end, and its cursors, with calls at the price that the limit leaves. -/
def agendaCost (p : Program) (limit : Nat) : List (List Cursor) → Nat
  | [] => 0
  | cs :: below =>
      cursorsCost (p.callCost (limit - below.length)) cs + 1 + agendaCost p limit below

/-- The price of a whole run. -/
def stepBound (p : Program) (limit : Nat) : Nat :=
  p.agendaCost limit [[.sequence p.statements]]

end Program

/-- What remains of a block without loops, which is no part of a loop. -/
structure Cursor.Plain (c : Cursor) : Prop where
  role : c.role = .sequence
  rest : LoopFree c.rest

/-- Every block that remains has no loops. -/
def Plain (agenda : List (List Cursor)) : Prop := ∀ cs ∈ agenda, ∀ c ∈ cs, c.Plain

section Cost

@[simp]
theorem blockCost_nil (call : Nat) : blockCost call [] = 1 := by
  rw [blockCost]

@[simp]
theorem blockCost_cons (call : Nat) (s : Stmt) (ss : List Stmt) :
    blockCost call (s :: ss) = s.cost call + blockCost call ss := by
  rw [blockCost]

@[simp]
theorem cursorsCost_nil (call : Nat) : cursorsCost call [] = 0 := rfl

@[simp]
theorem cursorsCost_cons (call : Nat) (rest : List Stmt) (role : Role) (cs : List Cursor) :
    cursorsCost call (⟨rest, role⟩ :: cs) = blockCost call rest + cursorsCost call cs := rfl

theorem Stmt.cost_pos (call : Nat) (s : Stmt) : 0 < s.cost call := by
  cases s <;> simp only [Stmt.cost] <;> omega

theorem Move.exists_of_stay {α : Type} {loc : Location} {next : α → List Cursor}
    {kept cs : List Cursor} {r : EStateM.Result Fault (Store σ) α} {b : Store σ}
    (h : Move.of loc next kept r = .stay b cs) : ∃ v, cs = next v := by
  cases r with
  | ok v c => cases h; exact ⟨v, rfl⟩
  | error fault c => cases h

variable [Sink σ] {look : String → Except ScopeError Function} {limit depth : Nat}
  {a b : Store σ} {cs cs' : List Cursor}

/-- A move within a frame costs a step at least, and adds no loops. -/
theorem cost_of_move_stay (hcs : ∀ c ∈ cs, c.Plain) (call : Nat)
    (h : move look limit depth a cs = .stay b cs') :
    (∀ c ∈ cs', c.Plain) ∧ cursorsCost call cs' < cursorsCost call cs := by
  rcases cs with _ | ⟨⟨_ | ⟨s, rest⟩, role⟩, cs⟩
  · cases h
  · -- The end of a block, which is no part of a loop.
    rw [List.forall_mem_cons] at hcs
    cases hcs.1.role
    cases h
    refine ⟨hcs.2, ?_⟩
    rw [cursorsCost_cons, blockCost_nil]
    omega
  · rw [List.forall_mem_cons] at hcs
    have hrest : ∀ c ∈ (⟨rest, role⟩ : Cursor) :: cs, c.Plain :=
      List.forall_mem_cons.2 ⟨⟨hcs.1.role, hcs.1.rest.tail⟩, hcs.2⟩
    have hpos := s.cost_pos call
    -- Most statements only move the cursor on.
    have hbasic : cs' = ⟨rest, role⟩ :: cs → (∀ c ∈ cs', c.Plain) ∧
        cursorsCost call cs' < cursorsCost call (⟨s :: rest, role⟩ :: cs) := by
      rintro rfl
      refine ⟨hrest, ?_⟩
      rw [cursorsCost_cons, cursorsCost_cons, blockCost_cons]
      omega
    -- A branch adds a block, which is part of its own price.
    have hbranch : ∀ {block : List Stmt}, LoopFree block → blockCost call block < s.cost call →
        cs' = .sequence block :: ⟨rest, role⟩ :: cs → (∀ c ∈ cs', c.Plain) ∧
        cursorsCost call cs' < cursorsCost call (⟨s :: rest, role⟩ :: cs) := by
      rintro block hblock hlt rfl
      refine ⟨List.forall_mem_cons.2 ⟨⟨rfl, hblock⟩, hrest⟩, ?_⟩
      rw [Cursor.sequence, cursorsCost_cons, cursorsCost_cons, cursorsCost_cons, blockCost_cons]
      omega
    cases s with
    | ifThen block loc =>
        rcases Move.exists_of_stay h with ⟨taken, hcs'⟩
        cases taken with
        | false => exact hbasic hcs'
        | true => exact hbranch hcs.1.rest.of_ifThen (by rw [Stmt.cost]; omega) hcs'
    | ifElse block other loc =>
        rcases Move.exists_of_stay h with ⟨taken, hcs'⟩
        rcases hcs.1.rest.of_ifElse with ⟨hblock, hother⟩
        cases taken with
        | false => exact hbranch hother (by rw [Stmt.cost]; omega) hcs'
        | true => exact hbranch hblock (by rw [Stmt.cost]; omega) hcs'
    | loop condition body loc => cases (loopFree_cons.1 hcs.1.rest).1
    | call name site =>
        simp only [move, moveStmt] at h
        cases hopen : Store.openCall look limit depth name a with
        | ok started c => rw [hopen] at h; cases h
        | error fault c => rw [hopen] at h; cases h
    | literal | function => cases h; exact hbasic rfl
    | operator | declare | read | assign | print =>
        rcases Move.exists_of_stay h with ⟨_, hcs'⟩
        exact hbasic hcs'

/-- A move into a call costs a step and the price of the call, and adds no loops. -/
theorem cost_of_move_call (hcs : ∀ c ∈ cs, c.Plain) (call : Nat) {f : Function} {scope : Scope}
    {site : Location} (h : move look limit depth a cs = .call b cs' f scope site) :
    (∀ c ∈ cs', c.Plain) ∧ cursorsCost call cs' + call < cursorsCost call cs := by
  rcases openCall_of_move h with ⟨name, rest, role, outer, rfl, hopen⟩
  simp only [move, moveStmt, hopen] at h
  cases h
  rw [List.forall_mem_cons] at hcs
  refine ⟨List.forall_mem_cons.2 ⟨⟨hcs.1.role, hcs.1.rest.tail⟩, hcs.2⟩, ?_⟩
  rw [cursorsCost_cons, cursorsCost_cons, blockCost_cons, Stmt.cost]
  omega

end Cost

namespace Program

variable {p : Program}

theorem agendaCost_cons (limit : Nat) (cs : List Cursor) (below : List (List Cursor)) :
    p.agendaCost limit (cs :: below) =
      cursorsCost (p.callCost (limit - below.length)) cs + 1 + p.agendaCost limit below := rfl

/-- The body of a function costs less than a call that may be made. -/
theorem blockCost_lt_callCost {f : Function} (hf : f ∈ p.functions) (calls : Nat) :
    blockCost (p.callCost calls) f.body < p.callCost (calls + 1) :=
  Nat.lt_succ_of_le (List.le_sum_of_mem (List.mem_map_of_mem hf))

/-- A step lowers the price of what remains to be done, and adds no loops. -/
theorem agendaCost_of_step [Sink σ] {m m' : Machine σ} (hp : p.LoopFree)
    (hlook : m.look = p.look) (hplain : Plain m.agenda) (h : m.step = .running m') :
    Plain m'.agenda ∧ p.agendaCost m.limit m'.agenda < p.agendaCost m.limit m.agenda := by
  have hagenda : m.agenda = m.calls.current.cursors :: m.agenda.tail := m.calls.agenda_eq
  rw [hagenda, Plain, List.forall_mem_cons] at hplain
  have hdepth : m.agenda.tail.length = m.calls.depth := by
    rw [List.length_tail, Machine.agenda, CallStack.length_agenda, Nat.add_sub_cancel]
  rw [hagenda, agendaCost_cons]
  rcases Machine.agenda_of_step h with ⟨a, cs, hm, hm'⟩ | ⟨a, cs, f, scope, site, hm, hm'⟩ | hm'
  · rcases cost_of_move_stay hplain.1 (p.callCost (m.limit - m.agenda.tail.length)) hm with
      ⟨hcs, hlt⟩
    rw [hm', agendaCost_cons]
    exact ⟨List.forall_mem_cons.2 ⟨hcs, hplain.2⟩, by omega⟩
  · -- The price of the call pays for the body, and for the return from it.
    rcases openCall_of_move hm with ⟨name, rest, role, outer, _, hopen⟩
    rcases openCall_eq_ok hopen with ⟨hname, hlimit, _⟩
    rw [hlook] at hname
    have hf := (mem_of_look hname).1
    rcases cost_of_move_call hplain.1 (p.callCost (m.limit - m.agenda.tail.length)) hm with
      ⟨hcs, hlt⟩
    have hbody := blockCost_lt_callCost hf (m.limit - (m.agenda.tail.length + 1))
    rw [show m.limit - (m.agenda.tail.length + 1) + 1 = m.limit - m.agenda.tail.length by omega]
      at hbody
    have hnew : ∀ c ∈ [Cursor.sequence f.body], c.Plain :=
      List.forall_mem_singleton.2 ⟨rfl, hp.body hf⟩
    rw [hm', agendaCost_cons, agendaCost_cons, List.length_cons, Cursor.sequence, cursorsCost_cons,
      cursorsCost_nil]
    exact ⟨List.forall_mem_cons.2 ⟨hnew, List.forall_mem_cons.2 ⟨hcs, hplain.2⟩⟩, by omega⟩
  · rw [hm']
    exact ⟨hplain.2, by omega⟩

end Program

namespace Machine

variable [Sink σ] {p : Program}

/-- Where no loops remain, a run ends within the price of what remains to be done. -/
theorem exists_runFor_of_plain (hp : p.LoopFree) {fuel : Nat} {m : Machine σ}
    (hlook : m.look = p.look) (hplain : Plain m.agenda)
    (hfuel : p.agendaCost m.limit m.agenda ≤ fuel) : ∃ outcome, runFor fuel m = some outcome := by
  induction fuel generalizing m with
  | zero =>
      -- There is a frame, and to leave it costs a step.
      have hagenda : m.agenda = m.calls.current.cursors :: m.agenda.tail := m.calls.agenda_eq
      rw [hagenda, Program.agendaCost_cons] at hfuel
      omega
  | succ fuel ih =>
      cases hs : m.step with
      | running m' =>
          rcases Program.agendaCost_of_step hp hlook hplain hs with ⟨hplain', hlt⟩
          have hlimit := limit_of_step hs
          rcases ih ((look_of_step hs).trans hlook) hplain' (by rw [hlimit]; omega) with
            ⟨outcome, houtcome⟩
          exact ⟨outcome, by rw [runFor, hs]; exact houtcome⟩
      | finished m' => exact ⟨_, by rw [runFor, hs]⟩
      | failed e m' => exact ⟨_, by rw [runFor, hs]⟩

end Machine

/-- A run of a program without loops has an outcome, whatever the initial stack, the sink and the
    limit on active calls, and however the functions of the program call one another. It takes no
    more steps than a number that depends on the program and the limit only. -/
theorem exists_run_of_loopFree [Sink σ] {m : Machine σ} (h : m.program.LoopFree)
    (initial : List Integer) :
    ∃ result m', m.run (m.program.stepBound m.limit) initial = some (result, m') := by
  cases hscope : globalScope m.program with
  | error e => exact ⟨.error e, m, by rw [Machine.run, Machine.load, hscope]⟩
  | ok scope =>
      have hload := Machine.load_eq hscope initial
      have hplain : Plain (m.loaded scope initial).agenda :=
        List.forall_mem_singleton.2 (List.forall_mem_singleton.2 ⟨rfl, h⟩)
      have hlook : (m.loaded scope initial).look = m.program.look := (bound_of_globalScope hscope).1
      rcases Machine.exists_runFor_of_plain h hlook hplain (Nat.le_refl _) with
        ⟨⟨ended, m'⟩, hrun⟩
      refine ⟨ended.map fun _ => m'.globalStack, m', (Machine.run_eq_some_iff hload).2 ?_⟩
      exact ⟨ended, hrun, rfl⟩

/-- A function that answers for zero, and asks another function about one less. -/
def parity (name other : String) (ofZero : Bool) (line : Nat) : Stmt :=
  .function ⟨name, ["n"], [], .one, ⟨line, 1⟩⟩
    [.read "n" ⟨line, 20⟩, .literal (.int 0) ⟨line, 22⟩, .operator .eq ⟨line, 24⟩,
     .ifElse [.literal (.bool ofZero) ⟨line, 30⟩]
       [.read "n" ⟨line, 40⟩, .literal (.int 1) ⟨line, 42⟩, .operator .sub ⟨line, 44⟩,
        .call other ⟨line, 46⟩] ⟨line, 27⟩]

/-- Two functions that call each other, down to zero. -/
def parityProgram : Program :=
  ⟨[parity "EVEN" "ODD" true 1, parity "ODD" "EVEN" false 2, .call "EVEN" ⟨3, 1⟩], []⟩

/-- Below zero the two functions would call each other without end, but for the limit. -/
theorem exists_run_parityProgram :
    ∃ m : Machine Transcript, m = .idle parityProgram defaultLimit .empty ∧ m.program.LoopFree ∧
      ∃ result m', m.run (m.program.stepBound m.limit) [-1] = some (result, m') := by
  have hfree : (Machine.idle parityProgram defaultLimit Transcript.empty).program.LoopFree := by
    decide
  exact ⟨_, rfl, hfree, exists_run_of_loopFree hfree [-1]⟩

end StackLang
