import StackLang.Proofs.ControlPath
import StackLang.Proofs.Refusal

/-!
# Statements that fail

What is wrong when a step fails, and what is left then.

`Fails` lists the reasons for which a statement can fail in a frame that has the names it uses:
too few values, operands that an operator does not work on, a value that is no boolean, a value
that the sink refuses, or a call that cannot be made. Each of them comes with the store that is
left, so it can be read off that a statement has taken all the values it works on or none, and
has not touched a variable: `Fails.exists_taken`, `Fails.scope_eq`. Only one failure belongs to
no statement of the frame in which it happens. A call that has too few results fails when its
frame is already gone, and all that is left are its callers.

`Machine.Fits.failed_cases` says that there are no other failures. So the state after a run that
has failed shows the state before the statement at which it has, up to the values that this
statement has taken: `failed_of_inRunOf`.

## Main definitions

* `Stmt.Decides`, `Stmt.TakesOne`: Statements that take one value.
* `Fails`: A statement fails, and leaves a store.
* `Machine.active?`: The statement that a step runs or goes back to.
* `Fault.taken`: How many values a statement has taken when it fails.
* `Machine.FailedWithin`, `Machine.FailedOnReturn`: What a failing step leaves.

## Theorems

* `Operator.fault_of_apply`: The faults of operators.
* `fails_of_move`: A move that fails is a statement that fails.
* `Machine.Fits.failed_cases`: The ways in which a step can fail.
* `failed_of_inRunOf`: What is left when a step or a run fails.
-/

namespace StackLang

variable {σ : Type}

/-- The statement takes a boolean and decides by it what is run. -/
inductive Stmt.Decides : Stmt → Prop
  | ifThen {block : List Stmt} {loc : Location} : Decides (.ifThen block loc)
  | ifElse {block other : List Stmt} {loc : Location} : Decides (.ifElse block other loc)
  | loop {condition body : List Stmt} {loc : Location} : Decides (.loop condition body loc)

/-- The statement takes one value. -/
inductive Stmt.TakesOne : Stmt → Prop
  | assign {x : String} {loc : Location} : TakesOne (.assign x loc)
  | print {loc : Location} : TakesOne (.print loc)
  | decides {s : Stmt} (hs : s.Decides) : TakesOne s

/-- The statement fails with a fault that is not about variables, and leaves the given store. -/
inductive Fails [Sink σ] (look : String → Except ScopeError Function) (limit depth : Nat)
    (a : Store σ) : Stmt → Fault → Store σ → Prop
  | operands {op : Operator} {loc : Location} (hsize : a.stack.size < 2) :
      Fails look limit depth a (.operator op loc) (.stackUnderflow 2 a.stack.size) a
  | operation {op : Operator} {loc : Location} {lhs rhs : Value} {below : Stack} {fault : Fault}
      (hpop : a.stack.popPair? = some (lhs, rhs, below))
      (happly : op.apply lhs rhs = .error fault) :
      Fails look limit depth a (.operator op loc) fault { a with stack := below }
  | value {s : Stmt} (hs : s.TakesOne) (hsize : a.stack.size = 0) :
      Fails look limit depth a s (.stackUnderflow 1 0) a
  | predicate {s : Stmt} {v : Value} {below : Stack} (hs : s.Decides)
      (hpop : a.stack.pop? = some (v, below)) (hv : v.asBool? = none) :
      Fails look limit depth a s (.invalidPredicate v) { a with stack := below }
  | output {loc : Location} {v : Value} {below : Stack} {reason : String} {t : σ}
      (hpop : a.stack.pop? = some (v, below))
      (hemit : Sink.emit ⟨v, loc⟩ a.sink = .error reason t) :
      Fails look limit depth a (.print loc) (.outputFailed reason)
        { a with stack := below, sink := t }
  | undefined {name : String} {site : Location} (hlook : look name = .error (.undefinedName name)) :
      Fails look limit depth a (.call name site) (.undefinedName name) a
  | tooDeep {name : String} {site : Location} (hlimit : limit ≤ depth) :
      Fails look limit depth a (.call name site) (.recursionLimit name limit) a
  | arguments {name : String} {site : Location} {f : Function} (hlook : look name = .ok f)
      (hsize : a.stack.size < f.parameters.length) :
      Fails look limit depth a (.call name site)
        (.stackUnderflow f.parameters.length a.stack.size) a

/-- The statement that the end of a block goes back to, or else the next one. -/
def Cursor.active? (c : Cursor) : Option Stmt :=
  match c.rest, c.role with
  | s :: _, _ => some s
  | [], .condition l => some l.stmt
  | [], .body l => some l.stmt
  | [], .sequence => none

theorem Cursor.head?_of_active? {c : Cursor} {s : Stmt} (h : c.active? = some s)
    (hs : ∀ l : Loop, s ≠ l.stmt) : c.rest.head? = some s := by
  rcases c with ⟨_ | ⟨t, rest⟩, role⟩
  · cases role with
    | sequence => cases h
    | condition l => cases h; exact absurd rfl (hs l)
    | body l => cases h; exact absurd rfl (hs l)
  · exact h

/-- The statement that the next step runs. At the end of a loop's block this is the loop, and at
    the end of a call it is the call. -/
def Machine.active? (m : Machine σ) : Option Stmt :=
  match m.calls.current.cursors with
  | c :: _ => c.active?
  | [] => m.calls.innermost?.map fun call => .call call.function.name call.site

theorem Stack.pop?_eq_none_iff {s : Stack} : s.pop? = none ↔ s.size = 0 := by
  rcases s with ⟨_ | ⟨v, below⟩⟩
  · exact ⟨fun _ => rfl, fun _ => rfl⟩
  · exact ⟨nofun, nofun⟩

theorem Stack.peek?_of_toList {s : Stack} {vs : List Value} {v : Value}
    (h : s.toList = vs ++ [v]) : s.peek? = some v := by
  have htop : s.topFirst.reverse = (v :: vs.reverse).reverse := by
    rw [List.reverse_cons, List.reverse_reverse]
    exact h
  rw [peek?, List.reverse_inj.1 htop]
  rfl

/-- The faults of operators. -/
theorem Operator.fault_of_apply {op : Operator} {lhs rhs : Value} {fault : Fault}
    (h : op.apply lhs rhs = .error fault) :
    (fault = .divisionByZero ∧ op = .div) ∨ (∃ x y, fault = .integerOverflow op x y) ∨
      fault = .typeMismatch op lhs.type rhs.type := by
  have hexactly : ∀ {op : Operator} {x y : Integer} {n : Int}, op.exactly x y n = .error fault →
      fault = .integerOverflow op x y := by
    intro op x y n hn
    unfold exactly at hn
    split at hn <;> cases hn
    rfl
  unfold apply at h
  split at h
  · exact .inr (.inl ⟨_, _, hexactly h⟩)
  · exact .inr (.inl ⟨_, _, hexactly h⟩)
  · exact .inr (.inl ⟨_, _, hexactly h⟩)
  · split at h
    · cases h
      exact .inl ⟨rfl, rfl⟩
    · exact .inr (.inl ⟨_, _, hexactly h⟩)
  all_goals cases h
  exact .inr (.inr rfl)

theorem ScopeError.isName_fault (e : ScopeError) : e.fault.IsName := by
  cases e <;> trivial

/-- A change of the scope fails over a name. -/
theorem Store.isName_of_onScope {change : Scope → Except ScopeError Scope} {a b : Store σ}
    {fault : Fault} (h : a.onScope change = .error fault b) : fault.IsName := by
  unfold Store.onScope at h
  cases hchange : change a.scope with
  | ok t => rw [hchange] at h; cases h
  | error e =>
      rw [hchange] at h
      cases h
      exact e.isName_fault

theorem Store.isName_of_load {x : String} {a b : Store σ} {fault : Fault}
    (h : a.load x = .error fault b) : fault.IsName := by
  unfold Store.load at h
  cases hvalue : a.scope.value x with
  | ok v => rw [hvalue] at h; cases h
  | error e =>
      rw [hvalue] at h
      cases h
      exact e.isName_fault

section Moves

variable [Sink σ] {look : String → Except ScopeError Function} {limit depth : Nat} {a b : Store σ}
  {fault : Fault} {s : Stmt}

theorem fails_of_popBool (hs : s.Decides) (h : a.popBool = .error fault b) :
    Fails look limit depth a s fault b := by
  unfold Store.popBool at h
  cases hpop : a.stack.pop? with
  | none =>
      rw [hpop] at h
      cases h
      exact .value (.decides hs) (Stack.pop?_eq_none_iff.1 hpop)
  | some top =>
      rcases top with ⟨v, below⟩
      simp only [hpop] at h
      cases hv : v.asBool? with
      | some taken => rw [hv] at h; cases h
      | none =>
          rw [hv] at h
          cases h
          exact .predicate hs hpop hv

theorem fails_of_operate {op : Operator} {loc : Location} (h : a.operate op = .error fault b) :
    Fails look limit depth a (.operator op loc) fault b := by
  unfold Store.operate at h
  cases hpop : a.stack.popPair? with
  | none =>
      rw [hpop] at h
      cases h
      exact .operands (Stack.popPair?_eq_none_iff.1 hpop)
  | some top =>
      rcases top with ⟨lhs, rhs, below⟩
      simp only [hpop] at h
      cases happly : op.apply lhs rhs with
      | ok v => rw [happly] at h; cases h
      | error fault' =>
          rw [happly] at h
          cases h
          exact .operation hpop happly

theorem fails_of_save {x : String} {loc : Location} (h : a.save x = .error fault b)
    (hname : ¬ fault.IsName) : Fails look limit depth a (.assign x loc) fault b := by
  unfold Store.save Store.pop at h
  cases hpop : a.stack.pop? with
  | none =>
      rw [hpop] at h
      cases h
      exact .value .assign (Stack.pop?_eq_none_iff.1 hpop)
  | some top =>
      -- There is a value, so only the variable can be missing.
      simp only [hpop] at h
      exact absurd (Store.isName_of_onScope h) hname

theorem fails_of_print {loc : Location} (h : a.print loc = .error fault b) :
    Fails look limit depth a (.print loc) fault b := by
  unfold Store.print Store.pop at h
  cases hpop : a.stack.pop? with
  | none =>
      rw [hpop] at h
      cases h
      exact .value .print (Stack.pop?_eq_none_iff.1 hpop)
  | some top =>
      rcases top with ⟨v, below⟩
      simp only [hpop] at h
      cases hemit : Sink.emit ⟨v, loc⟩ a.sink with
      | ok u t => rw [hemit] at h; cases h
      | error reason t =>
          rw [hemit] at h
          cases h
          exact .output hpop hemit

theorem fails_of_openCall {name : String} {site : Location}
    (h : a.openCall look limit depth name = .error fault b) (hname : ¬ fault.IsName) :
    Fails look limit depth a (.call name site) fault b := by
  unfold Store.openCall at h
  cases hlook : look name with
  | error e =>
      rw [hlook] at h
      cases h
      exact absurd e.isName_fault hname
  | ok f =>
      -- The limit comes before the arguments, and both before the scope.
      by_cases hlimit : limit ≤ depth
      · simp only [hlook, hlimit, if_true] at h
        cases h
        exact .tooDeep hlimit
      · simp only [hlook, hlimit, if_false] at h
        cases hpop : a.stack.popMany? f.parameters.length with
        | none =>
            rw [hpop] at h
            cases h
            exact .arguments hlook (Stack.popMany?_eq_none_iff.1 hpop)
        | some taken =>
            simp only [hpop] at h
            cases hscope : callScope f taken.1 with
            | ok t => rw [hscope] at h; cases h
            | error e =>
                rw [hscope] at h
                cases h
                exact absurd e.isName_fault hname

omit [Sink σ] in
theorem loc_of_fail {α : Type} {loc : Location} {next : α → List Cursor}
    {kept cs : List Cursor} {r : EStateM.Result Fault (Store σ) α} {e : RuntimeError}
    (h : Move.of loc next kept r = .fail e b cs) : loc = e.loc := by
  cases r with
  | ok v c => cases h
  | error fault c => cases h; rfl

/-- A move that fails, but not over a name, is a statement that fails. -/
theorem fails_of_move {cs cs' : List Cursor} {e : RuntimeError}
    (h : move look limit depth a cs = .fail e b cs') (hname : ¬ e.fault.IsName) :
    ∃ c outer s, cs = c :: outer ∧ c.active? = some s ∧ s.loc = e.loc ∧
      Fails look limit depth a s e.fault b := by
  rcases cs with _ | ⟨⟨_ | ⟨s, rest⟩, role⟩, outer⟩
  · cases h
  · cases role with
    | sequence => cases h
    | body l => cases h
    | condition l =>
        -- The test at the end of the condition belongs to the loop.
        refine ⟨_, outer, l.stmt, rfl, rfl, loc_of_fail h, ?_⟩
        exact fails_of_popBool .loop (exists_of_fail h)
  · refine ⟨_, outer, s, rfl, rfl, ?_⟩
    cases s with
    | ifThen block loc => exact ⟨loc_of_fail h, fails_of_popBool .ifThen (exists_of_fail h)⟩
    | ifElse block other loc =>
        exact ⟨loc_of_fail h, fails_of_popBool .ifElse (exists_of_fail h)⟩
    | operator op loc => exact ⟨loc_of_fail h, fails_of_operate (exists_of_fail h)⟩
    | assign x loc => exact ⟨loc_of_fail h, fails_of_save (exists_of_fail h) hname⟩
    | print loc => exact ⟨loc_of_fail h, fails_of_print (exists_of_fail h)⟩
    | call name site =>
        simp only [move, moveStmt] at h
        cases hopen : a.openCall look limit depth name with
        | ok started c => rw [hopen] at h; cases h
        | error fault c =>
            rw [hopen] at h
            cases h
            exact ⟨rfl, fails_of_openCall hopen hname⟩
    | declare x loc =>
        have hscope : a.onScope (fun t => t.allocate x) = .error e.fault b := exists_of_fail h
        exact absurd (Store.isName_of_onScope hscope) hname
    | read x loc => exact absurd (Store.isName_of_load (exists_of_fail h)) hname
    | literal | loop | function => cases h

end Moves

/-- How many values a statement has taken when it fails. -/
def Fault.taken : Fault → Nat
  | .divisionByZero | .integerOverflow _ _ _ | .typeMismatch _ _ _ => 2
  | .invalidPredicate _ | .outputFailed _ => 1
  | .stackUnderflow _ _ | .recursionLimit _ _ | .undefinedName _ | .duplicateName _ => 0

theorem Operator.taken_of_apply {op : Operator} {lhs rhs : Value} {fault : Fault}
    (h : op.apply lhs rhs = .error fault) : fault.taken = 2 := by
  rcases op.fault_of_apply h with ⟨rfl, _⟩ | ⟨x, y, rfl⟩ | rfl <;> rfl

namespace Fails

variable [Sink σ] {look : String → Except ScopeError Function} {limit depth : Nat} {a b : Store σ}
  {fault : Fault} {s : Stmt}

theorem scope_eq (h : Fails look limit depth a s fault b) : b.scope = a.scope := by
  cases h <;> rfl

/-- A statement that fails has taken the values it works on, or none. -/
theorem exists_taken (h : Fails look limit depth a s fault b) :
    ∃ taken, taken.length = fault.taken ∧ a.stack.toList = b.stack.toList ++ taken := by
  -- Three of the reasons are found out after values have been taken, the others before.
  have hnone : a.stack.toList = a.stack.toList ++ [] := (List.append_nil _).symm
  cases h with
  | operation hpop happly =>
      rw [Operator.taken_of_apply happly]
      exact ⟨[_, _], rfl, Stack.popPair?_eq_some_iff.1 hpop⟩
  | predicate hs hpop hv => exact ⟨_, rfl, Stack.pop?_eq_some_iff.1 hpop⟩
  | output hpop hemit => exact ⟨_, rfl, Stack.pop?_eq_some_iff.1 hpop⟩
  | operands hsize => exact ⟨[], rfl, hnone⟩
  | value hs hsize => exact ⟨[], rfl, hnone⟩
  | undefined hlook => exact ⟨[], rfl, hnone⟩
  | tooDeep hlimit => exact ⟨[], rfl, hnone⟩
  | arguments hlook hsize => exact ⟨[], rfl, hnone⟩

/-- Only a print fails over the output, and its value is the one that is refused. -/
theorem print_of_outputFailed {reason : String}
    (h : Fails look limit depth a s (.outputFailed reason) b) :
    ∃ loc v, s = .print loc ∧ a.stack.toList = b.stack.toList ++ [v] ∧
      Sink.emit ⟨v, loc⟩ a.sink = .error reason b.sink := by
  cases h with
  | output hpop hemit => exact ⟨_, _, rfl, Stack.pop?_eq_some_iff.1 hpop, hemit⟩
  | operation hpop happly =>
      rcases Operator.fault_of_apply happly with ⟨hfault, _⟩ | ⟨x, y, hfault⟩ | hfault <;>
        cases hfault

end Fails

/-- Returning from a call undoes it. -/
theorem CallStack.eq_push_of_pop? {c callers : CallStack} {call : CallFrame}
    (h : c.pop? = some (call, callers)) : c = callers.push call := by
  rcases c with ⟨global, _ | ⟨top, outer⟩, depth, rfl⟩
  · cases h
  · cases h
    rfl

namespace Machine

/-- A step has failed in the current frame: nothing but the cursors and the stack of this frame
    and the sink are different, and the stack has lost the values that the statement works on. -/
structure FailedWithin (e : RuntimeError) (m m' : Machine σ) : Prop where
  machine : m' = { m with calls := m'.calls, sink := m'.sink }
  others : m'.calls = m.calls.setCurrent m'.calls.current
  scope : m'.calls.current.scope = m.calls.current.scope
  stack : ∃ taken, taken.length = e.fault.taken ∧
    m.calls.current.stack.toList = m'.calls.current.stack.toList ++ taken

/-- A call with too few results has failed: its frame is gone, and nothing else is different. -/
structure FailedOnReturn (e : RuntimeError) (m m' : Machine σ) : Prop where
  machine : m' = { m with calls := m'.calls }
  returned : ∃ call, m.calls.pop? = some (call, m'.calls) ∧ call.cursors = [] ∧
    call.stack.size < call.function.arity.count ∧
    e = ⟨.stackUnderflow call.function.arity.count call.stack.size, call.site⟩

section Steps

variable [Sink σ] {p : Program} {m m' : Machine σ} {e : RuntimeError}

omit [Sink σ] in
theorem look_of_forall_ne {x : String} (h : ∀ f ∈ p.functions, f.name ≠ x) :
    p.look x = .error (.undefinedName x) := by
  cases hlook : p.look x with
  | ok f => exact absurd (mem_of_look hlook).2 (h f (mem_of_look hlook).1)
  | error reason => rw [(lookup_of_look hlook).1]

omit [Sink σ] in
/-- A move that leaves a frame fails only since a call has too few results. -/
theorem failedOnReturn_of_leave (hcursors : m.calls.current.cursors = [])
    (h : Move.leave.apply m = .failed e m') : FailedOnReturn e m m' := by
  unfold Move.apply at h
  cases hpop : m.calls.pop? with
  | none => rw [hpop] at h; cases h
  | some top =>
      rcases top with ⟨call, callers⟩
      simp only [hpop, leaveCall] at h
      cases hresults : call.stack.popMany? call.function.arity.count with
      | some taken => rw [hresults] at h; cases h
      | none =>
          rw [hresults] at h
          cases h
          rw [CallStack.eq_push_of_pop? hpop] at hcursors
          exact ⟨rfl, call, hpop, hcursors, Stack.popMany?_eq_none_iff.1 hresults, rfl⟩

/-- The ways in which a step can fail: the statement that it runs fails in the current frame, or
    a call has too few results. -/
theorem Fits.failed_cases (h : m.Fits p) (hp : p.Resolved) (hstep : m.step = .failed e m') :
    (∃ c outer s b cs, m.calls.current.cursors = c :: outer ∧ c.active? = some s ∧
      s.loc = e.loc ∧ Fails m.look m.limit m.calls.depth m.store s e.fault b ∧
      m' = m.place b cs) ∨ FailedOnReturn e m m' := by
  have hmove := hstep
  rw [step_eq] at hmove
  cases hm : move m.look m.limit m.calls.depth m.store m.calls.current.cursors with
  | stay b cs => rw [hm] at hmove; cases hmove
  | call b cs f scope site => rw [hm] at hmove; cases hmove
  | leave =>
      rw [hm] at hmove
      exact .inr (failedOnReturn_of_leave (nil_of_move_leave hm) hmove)
  | fail e' b cs =>
      rw [hm] at hmove
      cases hmove
      refine .inl ?_
      by_cases hname : e.fault.IsName
      · -- Over a name only a call can fail, and it leaves the store as it is.
        rcases h.call_of_failed hp hstep hname with ⟨x, hnext, _, hfault, hnone⟩
        rcases exists_cursors_of_next? m hnext with ⟨rest, role, outer, hcs⟩
        have hlook : m.look x = .error (.undefinedName x) := h.look ▸ look_of_forall_ne hnone
        rw [hcs] at hm
        simp only [move, moveStmt, Store.openCall, hlook] at hm
        rcases Move.fail.inj hm with ⟨_, rfl, rfl⟩
        exact ⟨_, outer, _, m.store, _, hcs, rfl, rfl, hfault ▸ .undefined hlook, rfl⟩
      · rcases fails_of_move hm hname with ⟨c, outer, s, hcs, hactive, hloc, hfails⟩
        exact ⟨c, outer, s, b, cs, hcs, hactive, hloc, hfails, rfl⟩

/-- What the sink is handed in a step that fails. -/
theorem outputFailed_of_hands? {printed : Printed} (h : m.hands? = some printed)
    (hstep : m.step = .failed e m') :
    ∃ reason, e = ⟨.outputFailed reason, printed.loc⟩ ∧
      Sink.emit printed m.sink = .error reason m'.sink := by
  rcases exists_step_of_hands? h with ⟨next, hnext⟩
  have hsame : m.step = _ := hnext σ m.sink
  rw [hsame] at hstep
  cases hemit : Sink.emit printed m.sink with
  | ok u t => rw [hemit] at hstep; cases hstep
  | error reason t =>
      rw [hemit] at hstep
      cases hstep
      exact ⟨reason, rfl, rfl⟩

/-- A step that fails for another reason than the output hands nothing over. -/
theorem sink_of_failed (hstep : m.step = .failed e m')
    (h : ∀ reason, e.fault ≠ .outputFailed reason) : m.hands? = none ∧ m'.sink = m.sink := by
  -- What is handed over in a step that fails is what the sink has refused.
  have hnone : m.hands? = none := by
    cases hhands : m.hands? with
    | none => rfl
    | some printed =>
        rcases outputFailed_of_hands? hhands hstep with ⟨reason, rfl, _⟩
        exact absurd rfl (h reason)
  have hsink := sink_of_step m
  rw [hstep, hnone] at hsink
  exact ⟨hnone, hsink⟩

theorem failedWithin_of_fails {s : Stmt} {b : Store σ} {cs : List Cursor}
    (h : Fails m.look m.limit m.calls.depth m.store s e.fault b) :
    FailedWithin e m (m.place b cs) := by
  refine ⟨rfl, ?_, ?_, ?_⟩
  · rw [current_place]
    rfl
  · rw [current_place]
    exact h.scope_eq
  · rw [current_place]
    exact h.exists_taken

/-- What a step that fails leaves, in a machine that fits. -/
theorem Fits.failedWithin_or_failedOnReturn (h : m.Fits p) (hp : p.Resolved)
    (hstep : m.step = .failed e m') : FailedWithin e m m' ∨ FailedOnReturn e m m' := by
  rcases h.failed_cases hp hstep with ⟨c, outer, s, b, cs, _, _, _, hfails, rfl⟩ | hreturn
  · exact .inl (failedWithin_of_fails hfails)
  · exact .inr hreturn

/-- The value that is refused is the one that the statement has taken. -/
theorem Fits.of_outputFailed (h : m.Fits p) (hp : p.Resolved) {reason : String} {loc : Location}
    (hstep : m.step = .failed ⟨.outputFailed reason, loc⟩ m') :
    ∃ v, m.calls.current.stack.toList = m'.calls.current.stack.toList ++ [v] ∧
      m.hands? = some ⟨v, loc⟩ ∧ Sink.emit ⟨v, loc⟩ m.sink = .error reason m'.sink := by
  rcases h.failed_cases hp hstep with
    ⟨c, outer, s, b, cs, hcs, hactive, hloc, hfails, rfl⟩ | hreturn
  · rcases hfails.print_of_outputFailed with ⟨site, v, rfl, hstack, hemit⟩
    cases hloc
    -- The end of a block goes back to a loop and not to a print, so the print comes next.
    have hnext : m.next? = some (.print loc) := by
      rw [next?, hcs]
      refine c.head?_of_active? hactive ?_
      intro l hloop
      cases hloop
    refine ⟨v, by rw [current_place]; exact hstack, ?_, hemit⟩
    have hpeek : m.calls.current.stack.peek? = some v := Stack.peek?_of_toList hstack
    rw [hands?, hnext, hpeek]
    rfl
  · rcases hreturn.returned with ⟨call, _, _, _, he⟩
    cases he

/-- The states of a run of a resolved program fit. -/
theorem InRunOf.fits (hp : p.Resolved) {limit : Nat} (h : m.InRunOf p limit) : m.Fits p := by
  rcases h with ⟨m₀, start, initial, rfl, rfl, hload, hreach⟩
  rcases load_eq_ok hload with ⟨scope, hscope, rfl⟩
  exact reaches_induction (P := Fits m₀.program) (fun _ _ hfits hstep => hfits.of_step hp hstep)
    hreach (fits_loaded hp hscope initial)

end Steps

/-- The number of active calls and the global stack, when a step has failed in a frame. -/
theorem FailedWithin.global {e : RuntimeError} {m m' : Machine σ} (h : FailedWithin e m m') :
    m'.calls.depth = m.calls.depth ∧ ∃ taken, m.globalStack = m'.globalStack ++ taken ∧
      taken.length = if m.calls.depth = 0 then e.fault.taken else 0 := by
  have hdepth := congrArg CallStack.depth h.others
  have hglobal := congrArg CallStack.global h.others
  rw [CallStack.depth_setCurrent] at hdepth
  rw [CallStack.global_setCurrent] at hglobal
  refine ⟨hdepth, ?_⟩
  -- The current frame is the global one only as long as no call is active.
  by_cases hzero : m.calls.depth = 0
  · rcases h.stack with ⟨taken, hlength, hstack⟩
    rw [if_pos hzero] at hglobal ⊢
    rw [CallStack.current_of_depth_eq_zero hzero] at hstack
    exact ⟨taken, by rw [globalStack, globalStack, hglobal, hstack], hlength⟩
  · rw [if_neg hzero] at hglobal ⊢
    exact ⟨[], by rw [globalStack, globalStack, hglobal, List.append_nil], rfl⟩

/-- The number of active calls and the global stack, when a call had too few results. -/
theorem FailedOnReturn.global {e : RuntimeError} {m m' : Machine σ} (h : FailedOnReturn e m m') :
    m'.calls.depth + 1 = m.calls.depth ∧ m'.globalStack = m.globalStack := by
  rcases h.returned with ⟨call, hpop, _⟩
  have hsplit : m.calls = m'.calls.push call := CallStack.eq_push_of_pop? hpop
  rw [globalStack, globalStack, hsplit]
  exact ⟨rfl, rfl⟩

/-- What a step that has failed leaves. -/
structure FailedTo [Sink σ] (e : RuntimeError) (m m' : Machine σ) : Prop where
  frames : FailedWithin e m m' ∨ FailedOnReturn e m m'
  /-- Only if the output fails has something been handed to the sink. -/
  silent : (∀ reason, e.fault ≠ .outputFailed reason) → m.hands? = none ∧ m'.sink = m.sink
  /-- If the output fails, the sink has been handed the value that was taken, and refused it. -/
  refused : ∀ reason, e.fault = .outputFailed reason → ∃ v,
    m.calls.current.stack.toList = m'.calls.current.stack.toList ++ [v] ∧
    m.hands? = some ⟨v, e.loc⟩ ∧ Sink.emit ⟨v, e.loc⟩ m.sink = .error reason m'.sink

theorem InRunOf.failedTo [Sink σ] {p : Program} (hp : p.Resolved) {limit : Nat}
    {m m' : Machine σ} {e : RuntimeError} (h : m.InRunOf p limit)
    (hstep : m.step = .failed e m') : FailedTo e m m' := by
  have hfits := h.fits hp
  refine ⟨hfits.failedWithin_or_failedOnReturn hp hstep, sink_of_failed hstep, ?_⟩
  intro reason hfault
  rcases e with ⟨fault, loc⟩
  cases hfault
  exact hfits.of_outputFailed hp hstep

end Machine

/-- Let a source text be compiled. When a step of a run of its program fails, whatever the limit,
    the sink and the initial stack are, no variable has changed and no frame but the current one.
    Its stack has lost two values if an operator did not work on them, one value if it was no
    boolean or the sink refused it, and else none. The only frame that can be gone is that of a
    call with too few results. Nothing has been handed to the sink, except a value that it
    refused. So a run that fails leaves the state before its last step, up to these changes. -/
theorem failed_of_inRunOf [Sink σ] {source : String} {p : Program}
    (hcompile : compile source = .ok p) :
    (∀ (m m' : Machine σ) (limit : Nat) (e : RuntimeError), m.InRunOf p limit →
      m.step = .failed e m' → Machine.FailedTo e m m') ∧
    ∀ (m m' : Machine σ) (initial : List Integer) (fuel : Nat) (e : RuntimeError),
      m.program = p → m.run fuel initial = some (.error e, m') →
      ∃ start last, m.load initial = .ok start ∧ start.Reaches last ∧
        last.step = .failed e m' ∧ Machine.FailedTo e last m' ∧
        ((m'.calls.depth = last.calls.depth ∧ ∃ taken,
            last.globalStack = m'.globalStack ++ taken ∧
              taken.length = if last.calls.depth = 0 then e.fault.taken else 0) ∨
          (Machine.FailedOnReturn e last m' ∧ m'.calls.depth + 1 = last.calls.depth ∧
            m'.globalStack = last.globalStack)) := by
  have hp := resolved_of_compile hcompile
  refine ⟨fun m m' limit e hrun hstep => hrun.failedTo hp hstep, ?_⟩
  rintro m m' initial fuel e rfl hrun
  rcases Machine.exists_of_run_error hp hrun with ⟨start, last, hload, hreach, _, hstep⟩
  have hlast : last.InRunOf m.program m.limit := ⟨m, start, initial, rfl, rfl, hload, hreach⟩
  have hfailed := hlast.failedTo hp hstep
  refine ⟨start, last, hload, hreach, hstep, hfailed, ?_⟩
  rcases hfailed.frames with hwithin | hreturn
  · exact .inl hwithin.global
  · exact .inr ⟨hreturn, hreturn.global⟩

/-- A function that divides by its argument and hands back one value too few, and a call. -/
def sharing : Program :=
  ⟨[.function ⟨"SHARE", ["n"], [], .two, ⟨1, 1⟩⟩
      [.literal (.int 10) ⟨1, 21⟩, .read "n" ⟨1, 24⟩, .operator .div ⟨1, 26⟩],
    .call "SHARE" ⟨1, 39⟩], []⟩

/-- By zero the division fails: the call stays active and both operands are gone. By five the
    return fails: the call is gone and its argument too, and what was below it is still there. -/
theorem failed_sharing :
    (∃ last m' : Machine Transcript, last.InRunOf sharing 1 ∧
      last.step = .failed ⟨.divisionByZero, ⟨1, 26⟩⟩ m' ∧
      Machine.FailedTo ⟨.divisionByZero, ⟨1, 26⟩⟩ last m' ∧
      last.calls.current.stack.toList = [.int 10, .int 0] ∧
      m'.calls.current.stack.toList = [] ∧ m'.calls.depth = 1) ∧
    ∃ last m' : Machine Transcript, last.InRunOf sharing 1 ∧
      last.step = .failed ⟨.stackUnderflow 2 1, ⟨1, 39⟩⟩ m' ∧
      Machine.FailedTo ⟨.stackUnderflow 2 1, ⟨1, 39⟩⟩ last m' ∧
      last.calls.depth = 1 ∧ m'.calls.depth = 0 ∧ m'.globalStack = [.int 7] := by
  have hcompile : compile "| SHARE ( VALUE n ) 10 n / RETURN 2 | SHARE" = .ok sharing := by
    with_unfolding_all rfl
  have hzero : Machine.InRunOf _ sharing 1 :=
    ⟨.idle sharing 1 Transcript.empty, _, [7, 0], rfl, rfl, rfl, 4, rfl⟩
  have hfive : Machine.InRunOf _ sharing 1 :=
    ⟨.idle sharing 1 Transcript.empty, _, [7, 5], rfl, rfl, rfl, 6, rfl⟩
  have hfailed := (failed_of_inRunOf (σ := Transcript) hcompile).1
  exact ⟨⟨_, _, hzero, rfl, hfailed _ _ 1 _ hzero rfl, rfl, rfl, rfl⟩,
    _, _, hfive, rfl, hfailed _ _ 1 _ hfive rfl, rfl, rfl, rfl⟩

end StackLang
