import StackLang.Proofs.Scoping
import StackLang.Proofs.TopLevel

/-!
# Names that are resolved stay resolved

A source text that is accepted has had its names resolved, and this is worth
something at run time: whatever is looked up is there.

The invariant is on frames. `Frame.Fits` says that the scope of a frame holds the
variables that belong to it, and that every statement that may still be run in the
frame uses only those and calls functions of the program. The variables of the
global frame are the global ones, whether the statement that declares them runs or
not; those of a call are the parameters and variables of its function. What may
still be run in a frame is `remaining`: the rest of every block, and all of a loop
that may come round again. A step that stays in a frame leaves at most that, and
lets the scope grow at most, so a frame keeps fitting. A new frame fits by the
rules of names.

A statement of a fitting frame cannot meet a name that is not there or is there
already, with one exception. A function that is declared in a branch or a loop can
be called as far as the rules of names are concerned, and is not bound when the
program runs. So a run fails over a name only at a call of such a function:
`nameFault_of_run`.

## Main definitions

* `remaining`: What may still be run in a frame.
* `Move.cursors?`: The cursors that a move leaves in the frame it happens in.
* `Frame.Fits`, `Machine.Fits`: The names that may be used are there.

## Theorems

* `remaining_of_move`: Nothing is added to what may be run.
* `not_isName_of_perform`: Statements in a fitting frame do not fail over names.
* `Machine.Fits.of_step`: A step keeps the invariant.
* `Machine.Fits.call_of_failed`: A fitting machine fails over a name only at a call.
* `nameFault_of_run`: The runs of a compiled program that fail over a name.
-/

namespace StackLang

variable {σ : Type}

/-- The blocks that come round again after a block of the given role. -/
def Role.blocks : Role → List Stmt
  | .sequence => []
  | .condition loop => loop.condition ++ loop.body
  | .body loop => loop.condition ++ loop.body

/-- What may still be run in a frame with the given cursors, without bodies of
    functions. -/
def remaining (cs : List Cursor) : List Stmt :=
  cs.flatMap fun c => preorder false (c.rest ++ c.role.blocks)

/-- The cursors that a move leaves in the frame it happens in. -/
def Move.cursors? : Move σ → Option (List Cursor)
  | .stay _ cs => some cs
  | .call _ cs _ _ _ => some cs
  | .leave => none
  | .fail _ _ cs => some cs

section Remaining

@[simp]
theorem remaining_nil : remaining [] = [] := rfl

@[simp]
theorem remaining_cons (rest : List Stmt) (role : Role) (cs : List Cursor) :
    remaining (⟨rest, role⟩ :: cs) =
      preorder false rest ++ preorder false role.blocks ++ remaining cs := by
  rw [remaining, List.flatMap_cons, preorder_append]
  rfl

theorem cursors?_of {α : Type} {loc : Location} {next : α → List Cursor} {kept cs : List Cursor}
    {r : EStateM.Result Fault (Store σ) α} (h : (Move.of loc next kept r).cursors? = some cs) :
    cs = kept ∨ ∃ v, cs = next v := by
  cases r with
  | ok v b => cases h; exact .inr ⟨v, rfl⟩
  | error fault b => cases h; exact .inl rfl

variable {look : String → Except ScopeError Function} {limit depth : Nat} {a : Store σ}

theorem remaining_of_moveEnd {role : Role} {cs cs' : List Cursor}
    (h : (moveEnd role a cs).cursors? = some cs') :
    remaining cs' ⊆ remaining (⟨[], role⟩ :: cs) := by
  rw [remaining_cons, preorder_nil, List.nil_append]
  cases role with
  | sequence =>
      cases h
      exact List.subset_append_right _ _
  | condition loop =>
      rcases cursors?_of h with rfl | ⟨b, rfl⟩
      · exact List.subset_append_right _ _
      · cases b with
        | false => exact List.subset_append_right _ _
        | true =>
            -- The body is one of the blocks that come round, and the loop still does.
            simp only [if_true, Cursor.body, remaining_cons, Role.blocks, preorder_append]
            intro s hs
            simp only [List.mem_append] at hs ⊢
            grind
  | body loop =>
      cases h
      simp only [Cursor.condition, remaining_cons, Role.blocks, preorder_append]
      intro s hs
      simp only [List.mem_append] at hs ⊢
      grind

theorem remaining_of_moveStmt [Sink σ] {s : Stmt} {rest : List Stmt} {role : Role}
    {cs cs' : List Cursor}
    (h : (moveStmt look limit depth s a (⟨rest, role⟩ :: cs)).cursors? = some cs') :
    remaining cs' ⊆ remaining (⟨s :: rest, role⟩ :: cs) := by
  -- Most statements only move the cursor on.
  have hkept : remaining (⟨rest, role⟩ :: cs) ⊆ remaining (⟨s :: rest, role⟩ :: cs) := by
    intro t ht
    simp only [remaining_cons, preorder_cons, List.mem_append, List.mem_cons] at ht ⊢
    grind
  have hbasic : ∀ {r : EStateM.Result Fault (Store σ) Unit} {loc : Location},
      (Move.of loc (fun _ => ⟨rest, role⟩ :: cs) (⟨rest, role⟩ :: cs) r).cursors? = some cs' →
        remaining cs' ⊆ remaining (⟨s :: rest, role⟩ :: cs) := by
    intro r loc hr
    rcases cursors?_of hr with rfl | ⟨_, rfl⟩ <;> exact hkept
  cases s with
  | ifThen block loc =>
      rcases cursors?_of h with rfl | ⟨b, rfl⟩
      · exact hkept
      · cases b with
        | false => exact hkept
        | true =>
            intro t ht
            simp only [if_true, Cursor.sequence, remaining_cons, preorder_cons, Role.blocks,
              Stmt.enclosed, preorder_nil, List.mem_append, List.mem_cons] at ht ⊢
            grind
  | ifElse block other loc =>
      rcases cursors?_of h with rfl | ⟨b, rfl⟩
      · exact hkept
      · intro t ht
        simp only [Cursor.sequence, remaining_cons, preorder_cons, Role.blocks, Stmt.enclosed,
          preorder_nil, List.mem_append, List.mem_cons] at ht ⊢
        cases b <;> grind
  | loop condition body loc =>
      cases h
      intro t ht
      simp only [Cursor.condition, remaining_cons, preorder_cons, preorder_append, Role.blocks,
        Stmt.enclosed, List.mem_append, List.mem_cons] at ht ⊢
      grind
  | call name site =>
      simp only [moveStmt] at h
      cases hopen : Store.openCall look limit depth name a with
      | ok entered b => rw [hopen] at h; cases h; exact hkept
      | error fault b => rw [hopen] at h; cases h; exact hkept
  | literal v loc => cases h; exact hkept
  | operator op loc => exact hbasic h
  | declare x loc => exact hbasic h
  | read x loc => exact hbasic h
  | assign x loc => exact hbasic h
  | function signature body => cases h; exact hkept
  | print loc => exact hbasic h

/-- Nothing is added to what may be run. -/
theorem remaining_of_move [Sink σ] {cs cs' : List Cursor}
    (h : (move look limit depth a cs).cursors? = some cs') : remaining cs' ⊆ remaining cs := by
  cases cs with
  | nil => cases h
  | cons c cs =>
      rcases c with ⟨rest, role⟩
      cases rest with
      | nil => exact remaining_of_moveEnd h
      | cons s rest => exact remaining_of_moveStmt h

end Remaining

/-- The fault is about a name. -/
def Fault.IsName : Fault → Prop
  | .undefinedName _ => True
  | .duplicateName _ => True
  | .stackUnderflow _ _ | .divisionByZero | .integerOverflow _ _ _ | .typeMismatch _ _ _
  | .invalidPredicate _ | .recursionLimit _ _ | .outputFailed _ => False

section Faults

variable {a b : Store σ} {fault : Fault} {vars functions : List String}

theorem Operator.not_isName_of_apply {op : Operator} {lhs rhs : Value}
    (h : op.apply lhs rhs = .error fault) : ¬ fault.IsName := by
  have hexactly : ∀ {op : Operator} {x y : Integer} {n : Int},
      op.exactly x y n = .error fault → ¬ fault.IsName := by
    intro op x y n hn
    unfold exactly at hn
    split at hn <;> cases hn
    exact id
  unfold apply at h
  split at h
  · exact hexactly h
  · exact hexactly h
  · exact hexactly h
  · split at h
    · cases h; exact id
    · exact hexactly h
  all_goals cases h
  exact id

theorem Store.not_isName_of_popBool (h : Store.popBool a = .error fault b) : ¬ fault.IsName := by
  unfold Store.popBool at h
  cases hpop : a.stack.pop? with
  | none => rw [hpop] at h; cases h; exact id
  | some top =>
      rcases top with ⟨v, below⟩
      rw [hpop] at h
      cases v with
      | int n => cases h; exact id
      | bool v => cases h

theorem Store.not_isName_of_operate {op : Operator} (h : Store.operate op a = .error fault b) :
    ¬ fault.IsName := by
  unfold Store.operate at h
  cases hpop : a.stack.popPair? with
  | none => rw [hpop] at h; cases h; exact id
  | some top =>
      rcases top with ⟨lhs, rhs, below⟩
      simp only [hpop] at h
      cases happly : op.apply lhs rhs with
      | ok v => rw [happly] at h; cases h
      | error fault' =>
          rw [happly] at h
          cases h
          exact op.not_isName_of_apply happly

theorem Store.not_isName_of_print [Sink σ] {loc : Location}
    (h : Store.print loc a = .error fault b) : ¬ fault.IsName := by
  unfold Store.print Store.pop at h
  cases hpop : a.stack.pop? with
  | none => rw [hpop] at h; cases h; exact id
  | some top =>
      rcases top with ⟨v, below⟩
      simp only [hpop] at h
      cases hemit : Sink.emit ⟨v, loc⟩ a.sink with
      | ok u s => rw [hemit] at h; cases h
      | error reason s => rw [hemit] at h; cases h; exact id

theorem Store.not_isName_of_save {x : String} (hx : a.scope.Holds x)
    (h : Store.save x a = .error fault b) : ¬ fault.IsName := by
  unfold Store.save Store.pop at h
  cases hpop : a.stack.pop? with
  | none => rw [hpop] at h; cases h; exact id
  | some top =>
      rcases top with ⟨v, below⟩
      rcases Scope.exists_assign hx v with ⟨s, hs⟩
      simp only [hpop, Store.onScope, hs] at h
      cases h

/-- A statement that is no call does not fail over a name, if the variables it uses are
    there. -/
theorem not_isName_of_perform [Sink σ] {s : Stmt} (hs : s.Uses vars functions)
    (hvars : ∀ x ∈ vars, a.scope.Holds x) (h : Store.perform s a = .error fault b) :
    ¬ fault.IsName := by
  cases s with
  | operator op loc => exact Store.not_isName_of_operate h
  | declare x loc =>
      rcases Scope.exists_allocate (hvars x hs).function_ne with ⟨t, ht⟩
      simp only [Store.perform, Store.onScope, ht] at h
      cases h
  | read x loc =>
      rcases Scope.exists_value (hvars x hs) with ⟨v, hv⟩
      simp only [Store.perform, Store.load, hv] at h
      cases h
  | assign x loc => exact Store.not_isName_of_save (hvars x hs) h
  | print loc => exact Store.not_isName_of_print h
  | literal | ifThen | ifElse | loop | function | call => cases h

/-- The ways in which the start of a call can go. -/
theorem openCall_cases (look : String → Except ScopeError Function) (limit depth : Nat)
    (name : String) (a : Store σ) :
    (∃ e, look name = .error e ∧ Store.openCall look limit depth name a = .error e.fault a) ∨
    (∃ f arguments b, look name = .ok f ∧ arguments.length = f.parameters.length ∧
      Store.openCall look limit depth name a =
        match callScope f arguments with
        | .ok s => .ok (f, s) b
        | .error e => .error e.fault b) ∨
    ∃ fault b, Store.openCall look limit depth name a = .error fault b ∧ ¬ fault.IsName := by
  unfold Store.openCall
  cases hlook : look name with
  | error e => exact .inl ⟨e, rfl, rfl⟩
  | ok f =>
      refine .inr ?_
      by_cases hlimit : limit ≤ depth
      · simp only [hlimit, if_true]
        exact .inr ⟨_, _, rfl, id⟩
      · simp only [hlimit, if_false]
        cases hpop : a.stack.popMany? f.parameters.length with
        | none => exact .inr ⟨_, _, rfl, id⟩
        | some taken =>
            rcases taken with ⟨arguments, below⟩
            refine .inl ⟨f, arguments, { a with stack := below }, rfl,
              (Stack.popMany?_eq_some_iff.1 hpop).1, ?_⟩
            simp only []
            cases callScope f arguments <;> rfl

/-- A call is that of a function that can be looked up, with a scope for as many arguments
    as there are parameters. -/
theorem call_of_move [Sink σ] {look : String → Except ScopeError Function} {limit depth : Nat}
    {cs cs' : List Cursor} {f : Function} {scope : Scope} {site : Location}
    (h : move look limit depth a cs = .call b cs' f scope site) :
    ∃ name arguments, look name = .ok f ∧ arguments.length = f.parameters.length ∧
      callScope f arguments = .ok scope := by
  rcases openCall_of_move h with ⟨name, rest, role, outer, _, hopen⟩
  rcases openCall_eq_ok hopen with ⟨hlook, _, arguments, below, hpop, hscope, _⟩
  exact ⟨name, arguments, hlook, (Stack.popMany?_eq_some_iff.1 hpop).1, hscope⟩

theorem exists_of_fail {α : Type} {loc : Location} {next : α → List Cursor}
    {kept cs : List Cursor} {r : EStateM.Result Fault (Store σ) α} {e : RuntimeError}
    (h : Move.of loc next kept r = .fail e b cs) : r = .error e.fault b := by
  cases r with
  | ok v c => cases h
  | error fault c => cases h; rfl

/-- Where the variables in use are there and every function has a scope, only a call can fail
    over a name, and only since there is no such function. -/
theorem call_of_fail [Sink σ] {look : String → Except ScopeError Function} {limit depth : Nat}
    {cs cs' : List Cursor} {e : RuntimeError}
    (h : move look limit depth a cs = .fail e b cs') (hname : e.fault.IsName)
    (hvars : ∀ x ∈ vars, a.scope.Holds x) (huses : ∀ s ∈ remaining cs, s.Uses vars functions)
    (hscope : ∀ x f arguments, look x = .ok f → arguments.length = f.parameters.length →
      ∃ s, callScope f arguments = .ok s) :
    ∃ x rest role outer reason, cs = ⟨.call x e.loc :: rest, role⟩ :: outer ∧
      look x = .error reason ∧ e.fault = reason.fault := by
  rcases cs with _ | ⟨⟨_ | ⟨s, rest⟩, role⟩, cs⟩
  · cases h
  · cases role with
    | sequence => cases h
    | condition loop => exact absurd hname (Store.not_isName_of_popBool (exists_of_fail h))
    | body loop => cases h
  · have hs : s.Uses vars functions := huses s (by simp)
    have hbasic : Store.perform s a = .error e.fault b → False :=
      fun hperform => not_isName_of_perform hs hvars hperform hname
    cases s with
    | call name site =>
        simp only [move, moveStmt] at h
        rcases openCall_cases look limit depth name a with
          ⟨reason, hlook, hopen⟩ | ⟨f, arguments, c, hlook, hlength, hopen⟩ | ⟨fault, c, hopen, hnot⟩
        · -- There is no such function: the case that is left.
          rw [hopen] at h
          cases h
          exact ⟨name, rest, role, cs, reason, rfl, hlook, rfl⟩
        · -- The function is there, and so is a scope for the call.
          rcases hscope name f arguments hlook hlength with ⟨t, ht⟩
          rw [hopen, ht] at h
          cases h
        · rw [hopen] at h
          cases h
          exact absurd hname hnot
    | ifThen block loc => exact absurd hname (Store.not_isName_of_popBool (exists_of_fail h))
    | ifElse block other loc =>
        exact absurd hname (Store.not_isName_of_popBool (exists_of_fail h))
    | literal | loop | function => cases h
    | operator op loc => exact (hbasic (exists_of_fail h)).elim
    | declare x loc => exact (hbasic (exists_of_fail h)).elim
    | read x loc => exact (hbasic (exists_of_fail h)).elim
    | assign x loc => exact (hbasic (exists_of_fail h)).elim
    | print loc => exact (hbasic (exists_of_fail h)).elim

end Faults

/-- The frame has the given variables, and what may still be run in it uses only these,
    calls functions of the program, and stands in the program. -/
structure Frame.Fits (p : Program) (vars : List String) (f : Frame) : Prop where
  holds : ∀ x ∈ vars, f.scope.Holds x
  uses : ∀ s ∈ remaining f.cursors,
    s.Uses vars (functionNamesIn (preorder false p.statements)) ∧ s ∈ preorder true p.statements

/-- The functions that can be called are those of the top level; the global frame has the
    global variables, and each call the parameters and variables of its function. -/
structure Machine.Fits (p : Program) (m : Machine σ) : Prop where
  look : m.look = p.look
  global : m.calls.global.Fits p p.globals
  calls : ∀ c ∈ m.calls.calls, c.toFrame.Fits p c.function.own

namespace Machine

variable {p : Program} {m m' : Machine σ}

theorem Fits.current (h : m.Fits p) : ∃ vars, m.calls.current.Fits p vars := by
  have hglobal := h.global
  have hcalls := h.calls
  unfold CallStack.current
  cases hm : m.calls.calls with
  | nil => exact ⟨_, hglobal⟩
  | cons call outer => exact ⟨_, hcalls call (hm ▸ List.mem_cons_self)⟩

/-- Another store and other cursors fit if they do so in the current frame. -/
theorem Fits.place (h : m.Fits p) {b : Store σ} {cs : List Cursor}
    (hlook : (m.place b cs).look = m.look)
    (hfits : ∀ vars, m.calls.current.Fits p vars → Frame.Fits p vars ⟨b.stack, b.scope, cs⟩) :
    (m.place b cs).Fits p := by
  rcases h with ⟨hm, hglobal, hcalls⟩
  rcases m with ⟨program, limit, ⟨global, calls, depth, hdepth⟩, sink⟩
  cases calls with
  | nil => exact ⟨hlook.trans hm, hfits _ hglobal, hcalls⟩
  | cons call outer =>
      refine ⟨hlook.trans hm, hglobal, ?_⟩
      intro c hc
      rcases List.mem_cons.1 hc with rfl | hc
      · exact hfits _ (hcalls call List.mem_cons_self)
      · exact hcalls c (List.mem_cons_of_mem call hc)

/-- A call fits if its function is one of the program. -/
theorem Fits.enterCall (h : m.Fits p) (hp : p.Resolved) {f : Function} (hf : f ∈ p.functions)
    {scope : Scope} (hscope : ∀ x ∈ f.own, scope.Holds x) (site : Location) :
    (m.enterCall f scope site).Fits p := by
  refine ⟨h.look, h.global, ?_⟩
  intro c hc
  rcases List.mem_cons.1 hc with rfl | hc
  · -- What may be run in the new frame is the body.
    refine ⟨hscope, ?_⟩
    intro s hs
    have hmem := Program.mem_preorder_of_mem_functions hf
    simp only [CallFrame.ofCall, Cursor.sequence, remaining_cons, Role.blocks, preorder_nil,
      remaining_nil, List.append_nil] at hs
    refine ⟨hp.uses_body hmem hs, (mem_preorder_true_iff _).2 (.inr ?_)⟩
    exact ⟨_, _, mem_functionsIn.1 hmem, (mem_preorder_true_iff _).2 (.inl hs)⟩
  · exact h.calls c hc

variable [Sink σ]

/-- What a move leaves in the current frame fits. -/
theorem Fits.of_move (h : m.Fits p) {b : Store σ} {cs : List Cursor}
    (hstore : (move m.look m.limit m.calls.depth m.store m.calls.current.cursors).store? = some b)
    (hcursors :
      (move m.look m.limit m.calls.depth m.store m.calls.current.cursors).cursors? = some cs) :
    (m.place b cs).Fits p := by
  have hgrows := grows_of_move hstore
  refine h.place (look_place_of_grows cs hgrows) fun vars hvars => ⟨?_, ?_⟩
  · intro x hx
    exact hgrows.holds x (hvars.holds x hx)
  · intro s hs
    exact hvars.uses s (remaining_of_move hcursors hs)

omit [Sink σ] in
/-- The caller of a call that has returned fits, whatever is on its stack. -/
theorem Fits.of_leaveCall (h : m.Fits p) {call : CallFrame} {callers : CallStack}
    (hpop : m.calls.pop? = some (call, callers)) (hleave : m.leaveCall call callers = .running m') :
    m'.Fits p := by
  -- The callers have been fitting all along; only a stack changes.
  have hcallers : Fits p { m with calls := callers } := by
    rcases h with ⟨hm, hglobal, hcalls⟩
    rcases m with ⟨program, limit, ⟨global, calls, depth, hdepth⟩, sink⟩
    cases calls with
    | nil => cases hpop
    | cons top outer =>
        cases hpop
        exact ⟨hm, hglobal, fun c hc => hcalls c (List.mem_cons_of_mem _ hc)⟩
  unfold leaveCall at hleave
  cases hresults : call.stack.popMany? call.function.arity.count with
  | none => simp only [hresults] at hleave; cases hleave
  | some taken =>
      simp only [hresults] at hleave
      cases hleave
      rw [setStack_eq_place]
      refine hcallers.place (look_place_of_grows _ (Scope.Grows.refl _)) fun vars hvars => ?_
      exact ⟨hvars.holds, hvars.uses⟩

/-- A step keeps the invariant. -/
theorem Fits.of_step (h : m.Fits p) (hp : p.Resolved) (hstep : m.step = .running m') :
    m'.Fits p := by
  rw [step_eq] at hstep
  cases hm : move m.look m.limit m.calls.depth m.store m.calls.current.cursors with
  | stay b cs =>
      rw [hm] at hstep
      cases hstep
      exact h.of_move (by rw [hm]; rfl) (by rw [hm]; rfl)
  | call b cs f scope site =>
      rw [hm] at hstep
      cases hstep
      rcases call_of_move hm with ⟨name, arguments, hlook, hlength, hscope⟩
      -- The function is one of the program, so its scope holds what its body uses.
      rw [h.look] at hlook
      have hf := (mem_of_look hlook).1
      rcases hp.exists_callScope hf hlength with ⟨t, ht, hholds⟩
      rw [hscope] at ht
      cases ht
      exact (h.of_move (by rw [hm]; rfl) (by rw [hm]; rfl)).enterCall hp hf hholds site
  | leave =>
      rw [hm, Move.apply] at hstep
      cases hpop : m.calls.pop? with
      | none => rw [hpop] at hstep; cases hstep
      | some top =>
          rw [hpop] at hstep
          exact h.of_leaveCall hpop hstep
  | fail e b cs => rw [hm] at hstep; cases hstep

/-- A fitting machine fails over a name only at a call, of a function that is not at the top
    level. -/
theorem Fits.call_of_failed (h : m.Fits p) (hp : p.Resolved) {e : RuntimeError}
    (hstep : m.step = .failed e m') (hname : e.fault.IsName) :
    ∃ x, m.next? = some (.call x e.loc) ∧ Stmt.call x e.loc ∈ preorder true p.statements ∧
      e.fault = .undefinedName x ∧ ∀ f ∈ p.functions, f.name ≠ x := by
  rw [step_eq] at hstep
  cases hm : move m.look m.limit m.calls.depth m.store m.calls.current.cursors with
  | stay b cs => rw [hm] at hstep; cases hstep
  | call b cs f scope site => rw [hm] at hstep; cases hstep
  | leave =>
      -- A return can only run short of values.
      rw [hm, Move.apply] at hstep
      cases hpop : m.calls.pop? with
      | none => rw [hpop] at hstep; cases hstep
      | some top =>
          rw [hpop] at hstep
          simp only [leaveCall] at hstep
          cases hresults : top.1.stack.popMany? top.1.function.arity.count with
          | some taken => simp only [hresults] at hstep; cases hstep
          | none => simp only [hresults] at hstep; cases hstep; exact hname.elim
  | fail e' b cs =>
      rw [hm] at hstep
      cases hstep
      rcases h.current with ⟨vars, hvars⟩
      rcases call_of_fail hm hname hvars.holds (fun s hs => (hvars.uses s hs).1) (by
        intro x f arguments hlook hlength
        rw [h.look] at hlook
        rcases hp.exists_callScope (mem_of_look hlook).1 hlength with ⟨s, hs, _⟩
        exact ⟨s, hs⟩) with ⟨x, rest, role, outer, reason, hcs, hlook, hfault⟩
      rw [h.look] at hlook
      rcases lookup_of_look hlook with ⟨rfl, hnone⟩
      refine ⟨x, by rw [next?, hcs]; rfl, ?_, hfault, hnone⟩
      exact (hvars.uses _ (by simp [hcs])).2

omit [Sink σ] in
/-- A resolved program fits at the start of its run. -/
theorem fits_loaded (hp : m.program.Resolved) {scope : Scope}
    (hscope : globalScope m.program = .ok scope) (initial : List Integer) :
    (m.loaded scope initial).Fits m.program := by
  rcases bound_of_globalScope hscope with ⟨hlook, hholds⟩
  refine ⟨hlook, ⟨hholds, ?_⟩, fun c hc => absurd hc List.not_mem_nil⟩
  intro s hs
  simp only [loaded, CallStack.ofGlobal, Cursor.sequence, remaining_cons, Role.blocks, preorder_nil,
    remaining_nil, List.append_nil] at hs
  exact ⟨hp.uses hs, (mem_preorder_true_iff _).2 (.inl hs)⟩

/-- How a run of a resolved program fails: after it has been loaded, in a step from a
    machine that fits. -/
theorem exists_of_run_error (hp : m.program.Resolved) {initial : List Integer} {fuel : Nat}
    {e : RuntimeError} (h : m.run fuel initial = some (.error e, m')) :
    ∃ start last, m.load initial = .ok start ∧ start.Reaches last ∧ last.Fits m.program ∧
      last.step = .failed e m' := by
  rcases hp.exists_globalScope with ⟨scope, hscope⟩
  have hload := load_eq hscope initial
  have hrun : runFor fuel (m.loaded scope initial) = some (.error e, m') := by
    rcases (run_eq_some_iff hload).1 h with ⟨ended, hrun, hresult⟩
    cases ended with
    | ok u => cases hresult
    | error e' => cases hresult; exact hrun
  rcases runFor_eq_some_iff.1 ⟨fuel, hrun⟩ with ⟨last, hreach, hend⟩
  refine ⟨_, last, hload, hreach, ?_, ?_⟩
  · exact reaches_induction (P := Fits m.program) (fun _ _ hfits hstep => hfits.of_step hp hstep)
      hreach (fits_loaded hp hscope initial)
  · cases hs : last.step with
    | running m₁ => rw [hs] at hend; cases hend
    | finished m₁ => rw [hs] at hend; cases hend
    | failed e' m₁ => rw [hs] at hend; cases hend; rfl

end Machine

/-- A run of the program of a source text, whatever the limit, the sink and the initial stack,
    never fails since a name is declared already. If it fails since a name is not defined,
    then in the step that runs a call of that name, where the function of that name is
    declared in a branch or a loop and not directly at the top level. If all functions are at
    the top level, this does not happen either. -/
theorem nameFault_of_run [Sink σ] {source : String} {m m' : Machine σ}
    (hcompile : compile source = .ok m.program) {initial : List Integer} {fuel : Nat}
    {e : RuntimeError} (hrun : m.run fuel initial = some (.error e, m')) :
    (∀ x, e.fault ≠ .duplicateName x) ∧
      (∀ x, e.fault = .undefinedName x →
        (∃ start last, m.load initial = .ok start ∧ start.Reaches last ∧
          last.next? = some (.call x e.loc) ∧ last.step = .failed e m') ∧
        Stmt.call x e.loc ∈ preorder true m.program.statements ∧
        (∃ s ∈ m.program.statements, ∃ f ∈ functionsIn (s.enclosed false), f.name = x) ∧
        ∀ f ∈ m.program.functions, f.name ≠ x) ∧
      (m.program.nested = [] → ∀ x, e.fault ≠ .undefinedName x) := by
  have hp := resolved_of_compile hcompile
  rcases Machine.exists_of_run_error hp hrun with ⟨start, last, hload, hreach, hfits, hstep⟩
  -- The function that is called is declared outside of bodies, and not at the top level.
  have hundefined : ∀ x, e.fault = .undefinedName x →
      last.next? = some (.call x e.loc) ∧
        Stmt.call x e.loc ∈ preorder true m.program.statements ∧
        (∃ s ∈ m.program.statements, ∃ f ∈ functionsIn (s.enclosed false), f.name = x) ∧
        ∀ f ∈ m.program.functions, f.name ≠ x := by
    intro x hx
    rcases hfits.call_of_failed hp hstep (by rw [hx]; trivial) with
      ⟨y, hnext, hcall, hfault, hnone⟩
    rw [hx] at hfault
    cases hfault
    rcases mem_functionNamesIn.1 (hp.mem_of_call hcall) with ⟨f, hf, hname⟩
    refine ⟨hnext, hcall, ?_, hnone⟩
    rcases mem_preorder_iff.1 (mem_functionsIn.1 hf) with hdirect | ⟨s, hs, hinner⟩
    · exact absurd hname (hnone f (mem_functionsIn.2 hdirect))
    · exact ⟨s, hs, f, mem_functionsIn.2 hinner, hname⟩
  refine ⟨?_, ?_, ?_⟩
  · -- Whatever fails over a name does so since it is not defined.
    intro x hx
    rcases hfits.call_of_failed hp hstep (by rw [hx]; trivial) with ⟨y, _, _, hfault, _⟩
    rw [hx] at hfault
    cases hfault
  · intro x hx
    rcases hundefined x hx with ⟨hnext, hrest⟩
    exact ⟨⟨start, last, hload, hreach, hnext, hstep⟩, hrest⟩
  · intro hnested x hx
    rcases hundefined x hx with ⟨_, hcall, _, hnone⟩
    rcases hp.exists_function_of_call hnested hcall with ⟨f, hf, hname⟩
    exact hnone f hf hname

theorem nameFault_branchFunction :
    ∃ m', (Machine.idle branchFunction 1 Transcript.empty).run 10 [] =
        some (.error ⟨.undefinedName "F", ⟨1, 35⟩⟩, m') ∧
      (∃ s ∈ branchFunction.statements, ∃ f ∈ functionsIn (s.enclosed false), f.name = "F") ∧
      ∀ f ∈ branchFunction.functions, f.name ≠ "F" := by
  have hcompile : compile "True IF | F ( ) 1 RETURN 1 | THEN F" = .ok branchFunction := by
    with_unfolding_all rfl
  have hrun : (Machine.idle branchFunction 1 Transcript.empty).run 10 [] =
      some (.error ⟨.undefinedName "F", ⟨1, 35⟩⟩, _) := rfl
  exact ⟨_, hrun, ((nameFault_of_run hcompile hrun).2.1 "F" rfl).2.2⟩

end StackLang
