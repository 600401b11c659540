import StackLang.Proofs.Noninterference

/-!
# A call touches its caller only through arguments and results

What passes between a call and the frame that makes it.

On the way in these are the arguments: they are taken off the stack of the caller, and become the
parameters in a scope that holds nothing else but the variables of the function, at zero. On the
way out these are the results: as many of the topmost values as the function hands back, in the
same order. All else on the stack of the call is dropped.

In between, the frames below the call are not touched, however many steps it takes and however
many calls are made from it. An activation is the frames of a call without those below, and a
machine steps as the activation within it does, so the frames below are those of the machine that
the activation runs in: `Machine.watch_within`. What has to be followed through the steps is the
outermost frame of the activation, which is the one whose end is the end of the call:
`Activation.Serves`.

## Main definitions

* `Scope.Binds`: A scope holds the arguments and the variables of a function.
* `CallStack.Above`: Frames stand above those of callers.
* `Activation.Serves`: The outermost frame is that of a function, called at a place.
* `Activation.Stage.status`: How the call of an activation stands.
* `CallStack.handedBack`: The callers after a call has handed back its results.

## Theorems

* `binds_of_callScope`: The scope at the start of a call.
* `Machine.watch_within`: A call within a machine stands as its activation does.
* `Activation.Serves.of_step`, `Activation.Serves.of_stepFor`: The outermost frame stays.
* `Machine.exists_enterCall_of_running`: What a call takes from its caller.
* `callBoundary`: A call touches its caller only through arguments and results.
-/

namespace StackLang

variable {σ : Type}

/-- The scope holds the arguments of a function under its parameters, its variables at zero, and
    nothing else. -/
structure Scope.Binds (f : Function) (arguments : List Value) (scope : Scope) : Prop where
  parameters : ∀ (i : Nat) (x : String) (v : Value), f.parameters[i]? = some x →
    arguments[i]? = some v → x ∉ f.locals → scope.find? x = some (.cell v)
  locals : ∀ x ∈ f.locals, scope.find? x = some (.cell .zero)
  others : ∀ x, x ∉ f.parameters → x ∉ f.locals → scope.find? x = none

section Scopes

variable {s t : Scope}

/-- Each of the bindings that are declared one after the other is found. -/
theorem find?_of_mem_declareAll {α : Type} {bind : Scope → α → Except ScopeError Scope}
    {key : α → String} {binding : α → Binding}
    (hbind : ∀ s a t, bind s a = .ok t ↔ s.declare (key a) (binding a) = .ok t) {as : List α}
    (h : as.foldlM bind s = .ok t) {a : α} (ha : a ∈ as) :
    t.find? (key a) = some (binding a) := by
  induction as generalizing s with
  | nil => cases ha
  | cons b as ih =>
      rw [List.foldlM_cons] at h
      cases hb : bind s b with
      | error e => rw [hb] at h; cases h
      | ok u =>
          rw [hb] at h
          have hrest : as.foldlM bind u = .ok t := h
          rcases List.mem_cons.1 ha with rfl | ha
          · -- It is there at once, and what comes later does not hide it.
            have hfound : u.find? (key a) = some (binding a) := by
              rw [Scope.find?_declare ((hbind s a u).1 hb), if_pos rfl]
            rw [find?_of_declareAll hbind hrest, hfound, Option.some_or]
          · exact ih hrest ha

theorem find?_of_allocateAll {xs : List String} (h : xs.foldlM Scope.allocate s = .ok t)
    (y : String) : t.find? y = if y ∈ xs then some (.cell .zero) else s.find? y := by
  induction xs generalizing s with
  | nil =>
      cases h
      rw [if_neg List.not_mem_nil]
  | cons x xs ih =>
      rw [List.foldlM_cons] at h
      cases hx : s.allocate x with
      | error e => rw [hx] at h; cases h
      | ok u =>
          rw [hx] at h
          rw [ih h, Scope.find?_allocate hx]
          by_cases hy : y ∈ xs
          · rw [if_pos hy, if_pos (List.mem_cons_of_mem x hy)]
          · by_cases hyx : y = x
            · rw [if_neg hy, if_pos hyx, if_pos (hyx ▸ List.mem_cons_self)]
            · have hnot : y ∉ x :: xs := fun hmem => (List.mem_cons.1 hmem).elim hyx hy
              rw [if_neg hy, if_neg hyx, if_neg hnot]

/-- The scope at the start of a call. -/
theorem binds_of_callScope {f : Function} {arguments : List Value} {scope : Scope}
    (h : callScope f arguments = .ok scope) : scope.Binds f arguments := by
  unfold callScope at h
  cases hbound : (f.parameters.zip arguments).foldlM
      (fun s (entry : String × Value) => s.declare entry.1 (.cell entry.2)) Scope.empty with
  | error e => rw [hbound] at h; cases h
  | ok bound =>
      rw [hbound] at h
      -- Variables come after parameters, so they hide a parameter of the same name.
      have hfind := find?_of_allocateAll (s := bound) (t := scope) h
      refine ⟨?_, ?_, ?_⟩
      · intro i x v hx hv hlocal
        have hmem : (x, v) ∈ f.parameters.zip arguments :=
          List.mem_of_getElem? (List.getElem?_zip_eq_some.2 ⟨hx, hv⟩)
        rw [hfind, if_neg hlocal]
        exact find?_of_mem_declareAll (fun _ _ _ => Iff.rfl) hbound hmem
      · intro x hx
        rw [hfind, if_pos hx]
      · intro x hx hlocal
        rw [hfind, if_neg hlocal, find?_of_declareAll (fun _ _ _ => Iff.rfl) hbound,
          Scope.find?_empty, Option.none_or, Option.map_eq_none_iff, List.find?_eq_none]
        intro entry hentry hname
        have hparameter := (List.of_mem_zip hentry).1
        exact hx (of_decide_eq_true hname ▸ hparameter)

end Scopes

namespace Activation

/-- The outermost frame is that of the given function, called at the given place. -/
def Serves (f : Function) (site : Location) (a : Activation σ) : Prop :=
  ∃ inner call, a.top :: a.waiting = inner ++ [call] ∧ call.function = f ∧ call.site = site

variable {f : Function} {site : Location} {a b : Activation σ}

theorem serves_ofCall (f : Function) (scope : Scope) (site : Location) (sink : σ) :
    (ofCall f scope site sink).Serves f site :=
  ⟨[], .ofCall f scope site, rfl, rfl, rfl⟩

/-- Another frame of the same call may stand innermost. -/
theorem Serves.setTop (h : a.Serves f site) (top : CallFrame)
    (hfunction : top.function = a.top.function) (hsite : top.site = a.top.site) (sink : σ) :
    Serves f site ⟨top, a.waiting, sink⟩ := by
  rcases h with ⟨_ | ⟨first, inner⟩, call, hsplit, hf, hs⟩
  · -- The innermost frame is the outermost one too.
    rcases List.cons.inj hsplit with ⟨htop, hwaiting⟩
    refine ⟨[], top, congrArg (top :: ·) hwaiting, ?_, ?_⟩
    · rw [hfunction, htop, hf]
    · rw [hsite, htop, hs]
  · rcases List.cons.inj hsplit with ⟨_, hwaiting⟩
    exact ⟨top :: inner, call, congrArg (top :: ·) hwaiting, hf, hs⟩

theorem Serves.of_leave (h : a.Serves f site) (hleave : a.leave = .running b) :
    b.Serves f site := by
  unfold leave at hleave
  cases hresults : a.top.stack.popMany? a.top.function.arity.count with
  | none => rw [hresults] at hleave; cases hleave
  | some taken =>
      rw [hresults] at hleave
      cases hwaiting : a.waiting with
      | nil => simp only [hwaiting] at hleave; cases hleave
      | cons caller waiting =>
          simp only [hwaiting] at hleave
          cases hleave
          -- The outermost frame is among those that wait.
          have hcaller : Serves f site (⟨caller, waiting, a.sink⟩ : Activation σ) := by
            rcases h with ⟨_ | ⟨first, inner⟩, call, hsplit, hf, hs⟩
            · rw [hwaiting] at hsplit
              cases hsplit
            · rw [hwaiting] at hsplit
              exact ⟨inner, call, (List.cons.inj hsplit).2, hf, hs⟩
          exact hcaller.setTop { caller with stack := caller.stack.extend taken.1 } rfl rfl a.sink

section Steps

variable [Sink σ] {look : String → Except ScopeError Function} {limit depth : Nat}
  {results : List Value} {sink : σ}

/-- A step after which the call goes on leaves its outermost frame in place. -/
theorem Serves.of_step (h : a.Serves f site) (hstep : a.step look limit depth = .running b) :
    b.Serves f site := by
  unfold step at hstep
  cases hm : move look limit (depth + a.waiting.length + 1) a.store a.top.cursors with
  | stay c cs =>
      rw [hm] at hstep
      cases hstep
      exact h.setTop (a.placed c cs) rfl rfl c.sink
  | call c cs function scope place =>
      rw [hm] at hstep
      cases hstep
      rcases h.setTop (a.placed c cs) rfl rfl c.sink with ⟨inner, call, hsplit, hf, hs⟩
      exact ⟨.ofCall function scope place :: inner, call, congrArg (_ :: ·) hsplit, hf, hs⟩
  | leave =>
      rw [hm] at hstep
      exact h.of_leave hstep
  | fail e c cs => rw [hm] at hstep; cases hstep

theorem Serves.of_stepFor {n : Nat} (h : a.Serves f site)
    (hsteps : a.stepFor look limit depth n = .running b) : b.Serves f site := by
  induction n generalizing a with
  | zero => cases hsteps; exact h
  | succ n ih =>
      rw [stepFor] at hsteps
      cases hs : a.step look limit depth with
      | running c => rw [hs] at hsteps; exact ih (h.of_step hs) hsteps
      | returned results sink => rw [hs] at hsteps; cases hsteps
      | failed e frames sink => rw [hs] at hsteps; cases hsteps

/-- A call returns where its frame is the only one, nothing remains in it, and it has as many
    values as the function hands back. -/
theorem step_eq_returned_iff : a.step look limit depth = .returned results sink ↔
    a.waiting = [] ∧ a.top.cursors = [] ∧ sink = a.sink ∧
      ∃ below, a.top.stack.popMany? a.top.function.arity.count = some (results, below) := by
  constructor
  · intro h
    unfold step at h
    cases hm : move look limit (depth + a.waiting.length + 1) a.store a.top.cursors with
    | stay c cs => rw [hm] at h; cases h
    | call c cs function scope place => rw [hm] at h; cases h
    | fail e c cs => rw [hm] at h; cases h
    | leave =>
        rw [hm] at h
        unfold leave at h
        cases hresults : a.top.stack.popMany? a.top.function.arity.count with
        | none => simp only [hresults] at h; cases h
        | some taken =>
            simp only [hresults] at h
            cases hwaiting : a.waiting with
            | cons caller waiting => rw [hwaiting] at h; cases h
            | nil =>
                rw [hwaiting] at h
                cases h
                exact ⟨rfl, nil_of_move_leave hm, rfl, taken.2, rfl⟩
  · rintro ⟨hwaiting, hcursors, rfl, below, hresults⟩
    rw [step, hcursors, move]
    simp only [leave, hresults, hwaiting]

theorem stepFor_succ {n : Nat} (h : a.stepFor look limit depth n = .running b) :
    a.stepFor look limit depth (n + 1) = b.step look limit depth := by
  induction n generalizing a with
  | zero =>
      cases h
      rw [stepFor]
      cases b.step look limit depth <;> rfl
  | succ n ih =>
      rw [stepFor] at h ⊢
      cases hs : a.step look limit depth with
      | running c => rw [hs] at h; exact ih h
      | returned results sink => rw [hs] at h; cases h
      | failed e frames sink => rw [hs] at h; cases h

/-- A call that has returned has done so in some step. -/
theorem exists_of_stepFor_returned {n : Nat}
    (h : a.stepFor look limit depth n = .returned results sink) :
    ∃ k b, k < n ∧ a.stepFor look limit depth k = .running b ∧
      b.step look limit depth = .returned results sink := by
  induction n generalizing a with
  | zero => cases h
  | succ n ih =>
      rw [stepFor] at h
      cases hs : a.step look limit depth with
      | running c =>
          rw [hs] at h
          rcases ih h with ⟨k, b, hk, hsteps, hreturn⟩
          exact ⟨k + 1, b, by omega, by rw [stepFor, hs]; exact hsteps, hreturn⟩
      | returned results' sink' =>
          rw [hs] at h
          cases h
          exact ⟨0, a, by omega, rfl, hs⟩
      | failed e frames sink => rw [hs] at h; cases h

end Steps

/-- Where the frame of the call is the only one, it is that of the function. -/
theorem Serves.of_single (h : a.Serves f site) {call : CallFrame}
    (hsplit : a.top :: a.waiting = [call]) : call.function = f ∧ call.site = site := by
  rcases h with ⟨inner, outermost, hserves, hf, hs⟩
  have hsame : inner ++ [outermost] = [] ++ [call] := hserves.symm.trans hsplit
  cases List.append_inj_right' hsame rfl
  exact ⟨hf, hs⟩

/-- How the call of an activation stands, within a machine. -/
def Stage.status (m : Machine σ) : Stage σ → CallStatus σ
  | .running a => .active (m.within a)
  | .returned results sink => .returned (m.resume results sink)
  | .failed e frames sink => .failed e (m.withCalls frames sink)

theorem Stage.running_of_status {stage : Stage σ} {m m₂ : Machine σ}
    (h : stage.status m = .active m₂) : ∃ b, stage = .running b ∧ m₂ = m.within b := by
  cases stage with
  | running b => cases h; exact ⟨b, rfl, rfl⟩
  | returned results sink => cases h
  | failed e frames sink => cases h

end Activation

namespace Machine

variable [Sink σ]

/-- A call within a machine stands as its activation does. -/
theorem watch_within (m : Machine σ) (n : Nat) (a : Activation σ) :
    watch m.calls.depth n (m.within a) =
      (a.stepFor m.look m.limit m.calls.depth n).status m := by
  -- As long as the activation goes on, there is a call more than the machine has.
  induction n generalizing a with
  | zero => rfl
  | succ n ih =>
      rw [watch, step_within, Activation.stepFor]
      cases a.step m.look m.limit m.calls.depth with
      | running b =>
          have hdepth : ¬ (m.within b).calls.depth ≤ m.calls.depth := by
            simp only [within, withCalls, List.length_cons]
            omega
          simp only [Activation.Stage.apply, hdepth, if_false]
          exact ih b
      | returned results sink =>
          have hdepth : (m.resume results sink).calls.depth ≤ m.calls.depth :=
            Nat.le_of_eq (depth_place _ _ _)
          simp only [Activation.Stage.apply, hdepth, if_true]
          rfl
      | failed e frames sink => rfl

/-- The call that is made next stands as the activation that it starts. -/
theorem callAfter_of_enterCall {m caller : Machine σ} {f : Function} {scope : Scope}
    {site : Location} (hdepth : caller.calls.depth = m.calls.depth)
    (hstep : m.step = .running (caller.enterCall f scope site)) (n : Nat) :
    m.callAfter (n + 1) =
      ((Activation.ofCall f scope site caller.sink).stepFor caller.look caller.limit
        caller.calls.depth n).status caller := by
  have hdeeper : ¬ (caller.enterCall f scope site).calls.depth ≤ m.calls.depth := by
    simp only [enterCall, CallStack.push, hdepth]
    omega
  rw [← watch_within, callAfter, watch, hstep]
  simp only [hdeeper, if_false]
  rw [← hdepth]
  rfl

/-- What a call takes from its caller: the function is found, the arguments are taken off the
    stack, and the cursor moves on. -/
theorem exists_enterCall_of_running {m m₁ : Machine σ} {name : String} {site : Location}
    (hnext : m.next? = some (.call name site)) (hstep : m.step = .running m₁) :
    ∃ f base arguments scope rest role outer,
      m.calls.current.cursors = ⟨.call name site :: rest, role⟩ :: outer ∧
      m.look name = .ok f ∧ arguments.length = f.parameters.length ∧
      m.calls.current.stack.toList = base ++ arguments ∧ callScope f arguments = .ok scope ∧
      m₁ = (m.place { m.store with stack := .ofList base } (⟨rest, role⟩ :: outer)).enterCall
        f scope site := by
  rcases exists_cursors_of_next? m hnext with ⟨rest, role, outer, hcs⟩
  rw [step_eq, hcs, move, moveStmt] at hstep
  cases hopen : Store.openCall m.look m.limit m.calls.depth name m.store with
  | error fault b => rw [hopen] at hstep; cases hstep
  | ok started b =>
      rcases started with ⟨f, scope⟩
      rw [hopen] at hstep
      cases hstep
      rcases openCall_eq_ok hopen with ⟨hlook, _, arguments, below, hpop, hscope, rfl⟩
      rcases Stack.popMany?_eq_some_iff.1 hpop with ⟨hlength, hstack⟩
      have hbelow : below = .ofList below.toList :=
        Stack.toList_inj.1 (Stack.toList_ofList _).symm
      refine ⟨f, below.toList, arguments, scope, rest, role, outer, hcs, hlook, hlength, hstack,
        hscope, ?_⟩
      rw [← hbelow]

end Machine

namespace CallStack

/-- The frames of the callers are at the bottom, as they are, and above them stands the frame of
    a call, and those of the calls made from it. -/
def Above (callers : CallStack) (inner : List CallFrame) (call : CallFrame) (c : CallStack) :
    Prop :=
  c.global = callers.global ∧ c.calls = inner ++ call :: callers.calls

/-- The callers, with values on top of those that the current frame had. -/
def handedBack (callers : CallStack) (base results : List Value) : CallStack :=
  callers.setCurrent { callers.current with stack := .ofList (base ++ results) }

end CallStack

/-- What becomes of the callers while the call that is made next is active, and after it. -/
structure Machine.KeepsCallers [Sink σ] (m : Machine σ) (f : Function) (site : Location)
    (base : List Value) (callers : CallStack) : Prop where
  /-- As long as the call is active, its frame is there and all frames below are as they were. -/
  active : ∀ n m₂, m.callAfter (n + 1) = .active m₂ → ∃ inner call,
    callers.Above inner call m₂.calls ∧ call.function = f ∧ call.site = site
  /-- Once nothing remains in its frame, the call hands back its topmost values. -/
  returns : ∀ n m₂ call dropped results, m.callAfter (n + 1) = .active m₂ →
    callers.Above [] call m₂.calls → call.cursors = [] →
    call.stack.toList = dropped ++ results → results.length = f.arity.count →
    ∃ m₃, m₂.step = .running m₃ ∧ m.callAfter (n + 2) = .returned m₃ ∧
      m₃.calls = callers.handedBack base results
  /-- There is no other way to return. -/
  returned : ∀ n m₃, m.callAfter (n + 1) = .returned m₃ → ∃ k m₂ call dropped results, k < n ∧
    m.callAfter (k + 1) = .active m₂ ∧ m₂.step = .running m₃ ∧
    callers.Above [] call m₂.calls ∧ call.function = f ∧ call.cursors = [] ∧
    call.stack.toList = dropped ++ results ∧ results.length = f.arity.count ∧
    m₃.calls = callers.handedBack base results
  /-- If the call fails, the frames below are as they were. -/
  failed : ∀ n e m₂, m.callAfter (n + 1) = .failed e m₂ → ∃ inner,
    m₂.calls.global = callers.global ∧ m₂.calls.calls = inner ++ callers.calls

namespace Machine

theorem above_within {m : Machine σ} {a : Activation σ} {inner : List CallFrame}
    {call : CallFrame} : m.calls.Above inner call (m.within a).calls ↔
      a.top :: a.waiting = inner ++ [call] := by
  have hcalls : (m.within a).calls.calls = (a.top :: a.waiting) ++ m.calls.calls := rfl
  have happend : inner ++ call :: m.calls.calls = (inner ++ [call]) ++ m.calls.calls := by
    rw [List.append_assoc, List.singleton_append]
  constructor
  · rintro ⟨_, h⟩
    rw [hcalls, happend] at h
    exact List.append_cancel_right h
  · intro h
    exact ⟨rfl, by rw [hcalls, happend, h]⟩

theorem calls_resume {m : Machine σ} {base : List Value}
    (hbase : m.calls.current.stack = .ofList base) (results : List Value) (sink : σ) :
    (m.resume results sink).calls = m.calls.handedBack base results := by
  have hextend : m.calls.current.stack.extend results = .ofList (base ++ results) := by
    rw [← Stack.toList_inj, Stack.toList_extend, hbase, Stack.toList_ofList, Stack.toList_ofList]
  rw [CallStack.handedBack, ← hextend]
  rfl

/-- The callers of a call that runs within a machine are the frames of this machine. -/
theorem keepsCallers_of_within [Sink σ] {m caller : Machine σ} {f : Function} {site : Location}
    {base : List Value} {a : Activation σ} (ha : a.Serves f site)
    (hbase : caller.calls.current.stack = .ofList base)
    (hafter : ∀ n, m.callAfter (n + 1) =
      (a.stepFor caller.look caller.limit caller.calls.depth n).status caller) :
    m.KeepsCallers f site base caller.calls := by
  refine ⟨?_, ?_, ?_, ?_⟩
  · intro n m₂ hm₂
    rw [hafter] at hm₂
    rcases Activation.Stage.running_of_status hm₂ with ⟨b, hsteps, rfl⟩
    rcases ha.of_stepFor hsteps with ⟨inner, call, hsplit, hf, hs⟩
    exact ⟨inner, call, above_within.2 hsplit, hf, hs⟩
  · intro n m₂ call dropped results hm₂ habove hcursors hstack hlength
    -- With no frame above it, the frame of the call is the whole activation.
    rw [hafter] at hm₂
    rcases Activation.Stage.running_of_status hm₂ with ⟨b, hsteps, rfl⟩
    have hsplit : b.top :: b.waiting = [call] := above_within.1 habove
    have hfunction := ((ha.of_stepFor hsteps).of_single hsplit).1
    rcases List.cons.inj hsplit with ⟨rfl, hwaiting⟩
    have hpop : b.top.stack.popMany? b.top.function.arity.count =
        some (results, .ofList dropped) := by
      rw [Stack.popMany?_eq_some_iff, hfunction, Stack.toList_ofList]
      exact ⟨hlength, hstack⟩
    have hreturn : b.step caller.look caller.limit caller.calls.depth =
        .returned results b.sink :=
      Activation.step_eq_returned_iff.2 ⟨hwaiting, hcursors, rfl, _, hpop⟩
    refine ⟨caller.resume results b.sink, ?_, ?_, calls_resume hbase results b.sink⟩
    · rw [step_within, hreturn]
      rfl
    · rw [hafter, Activation.stepFor_succ hsteps, hreturn]
      rfl
  · intro n m₃ hm₃
    rw [hafter] at hm₃
    cases hsteps : a.stepFor caller.look caller.limit caller.calls.depth n with
    | running b => rw [hsteps] at hm₃; cases hm₃
    | failed e frames sink => rw [hsteps] at hm₃; cases hm₃
    | returned results sink =>
        rw [hsteps] at hm₃
        cases hm₃
        -- The state before is the one in which nothing remains to be done.
        rcases Activation.exists_of_stepFor_returned hsteps with ⟨k, b, hk, hrunning, hreturn⟩
        rcases Activation.step_eq_returned_iff.1 hreturn with
          ⟨hwaiting, hcursors, _, below, hpop⟩
        have hsplit : b.top :: b.waiting = [b.top] := congrArg (b.top :: ·) hwaiting
        have hfunction := ((ha.of_stepFor hrunning).of_single hsplit).1
        rcases Stack.popMany?_eq_some_iff.1 hpop with ⟨hlength, hstack⟩
        refine ⟨k, caller.within b, b.top, below.toList, results, hk, ?_, ?_,
          above_within.2 hsplit, hfunction, hcursors, hstack, hfunction ▸ hlength,
          calls_resume hbase results sink⟩
        · rw [hafter, hrunning]
          rfl
        · rw [step_within, hreturn]
          rfl
  · intro n e m₂ hm₂
    rw [hafter] at hm₂
    cases hsteps : a.stepFor caller.look caller.limit caller.calls.depth n with
    | running b => rw [hsteps] at hm₂; cases hm₂
    | returned results sink => rw [hsteps] at hm₂; cases hm₂
    | failed e' frames sink =>
        rw [hsteps] at hm₂
        cases hm₂
        exact ⟨frames, rfl, rfl⟩

end Machine

/-- A call touches its caller only through arguments and results. The step that makes a call
    takes as many values off the stack of the caller as the function has parameters, moves the
    caller past the call, and starts a frame with an empty stack and a scope that holds these
    values under the parameters and the variables of the function at zero. From then on until the
    frame is gone, all frames below stay as they are. When nothing remains in the frame, the
    topmost of its values, as many as the function hands back, are put on the stack of the caller
    in the same order; the other values are dropped, and all else of the caller is as it was. -/
theorem callBoundary [Sink σ] {m m₁ : Machine σ} {name : String} {site : Location}
    (hnext : m.next? = some (.call name site)) (hstep : m.step = .running m₁) :
    ∃ f base arguments scope callers rest role outer,
      m.look name = .ok f ∧ arguments.length = f.parameters.length ∧
      m.calls.current.stack.toList = base ++ arguments ∧
      m.calls.current.cursors = ⟨.call name site :: rest, role⟩ :: outer ∧
      callers = m.calls.setCurrent
        ⟨.ofList base, m.calls.current.scope, ⟨rest, role⟩ :: outer⟩ ∧
      m₁.calls = callers.push (.ofCall f scope site) ∧ scope.Binds f arguments ∧
      m.KeepsCallers f site base callers := by
  rcases Machine.exists_enterCall_of_running hnext hstep with
    ⟨f, base, arguments, scope, rest, role, outer, hcs, hlook, hlength, hstack, hscope, rfl⟩
  refine ⟨f, base, arguments, scope, _, rest, role, outer, hlook, hlength, hstack, hcs, rfl, rfl,
    binds_of_callScope hscope, ?_⟩
  have hbase : (m.place { m.store with stack := .ofList base }
      (⟨rest, role⟩ :: outer)).calls.current.stack = .ofList base := by
    rw [Machine.current_place]
  exact Machine.keepsCallers_of_within (Activation.serves_ofCall f scope site m.sink) hbase
    (Machine.callAfter_of_enterCall (Machine.depth_place _ _ _) hstep)

/-- A function that squares its first argument by a call, hands back the square and its second
    argument, and leaves a number that is dropped. -/
def squareAndKeep : Function :=
  ⟨⟨"KEEP", ["a", "b"], ["t"], .two, ⟨4, 1⟩⟩, [.literal (.int 99) ⟨5, 1⟩, .read "a" ⟨5, 4⟩,
    .call "SQUARE" ⟨5, 6⟩, .assign "t" ⟨5, 13⟩, .read "t" ⟨6, 1⟩, .read "b" ⟨6, 3⟩]⟩

/-- A program that calls this function with what is on the stack. -/
def squareAndKeepProgram : Program :=
  ⟨[.call "KEEP" ⟨2, 1⟩, .function squareAndKeep.toSignature squareAndKeep.body,
    .function squaring.toSignature squaring.body], []⟩

/-- The program about to make the call. -/
def squareAndKeepStart : Machine Transcript :=
  ⟨squareAndKeepProgram, 2, .ofGlobal ⟨[("KEEP", .function squareAndKeep),
    ("SQUARE", .function squaring)]⟩ (.ofList [.int 7, .int 3, .int 4])
      squareAndKeepProgram.statements, .empty⟩

/-- From seven, three and four the call takes three and four, and leaves the seven under nine and
    four. After six steps two calls are active. -/
theorem callBoundary_squareAndKeep :
    squareAndKeepStart.InRunOf squareAndKeepProgram 2 ∧
    ∃ (m₁ m₂ m₃ : Machine Transcript) (scope : Scope) (callers : CallStack),
      squareAndKeepStart.step = .running m₁ ∧
      m₁.calls = callers.push (.ofCall squareAndKeep scope ⟨2, 1⟩) ∧
      callers.current.stack.toList = [.int 7] ∧
      scope.Binds squareAndKeep [.int 3, .int 4] ∧
      squareAndKeepStart.callAfter 6 = .active m₂ ∧ m₂.calls.depth = 2 ∧
      (∃ inner call, callers.Above inner call m₂.calls ∧ call.function = squareAndKeep) ∧
      squareAndKeepStart.callAfter 16 = .returned m₃ ∧
      m₃.calls = callers.handedBack [.int 7] [.int 9, .int 4] := by
  have hnext : squareAndKeepStart.next? = some (.call "KEEP" ⟨2, 1⟩) := rfl
  have hstep : squareAndKeepStart.step = .running _ := rfl
  have hsix : squareAndKeepStart.callAfter 6 = .active _ := rfl
  have hfinal : squareAndKeepStart.callAfter 15 = .active _ := rfl
  rcases callBoundary hnext hstep with ⟨f, base, arguments, scope, callers, rest, role, outer,
    hlook, hlength, hstack, hcs, rfl, hcalls, hbinds, hkeeps⟩
  cases hlook
  cases hcs
  have hsplit : base ++ arguments = [.int 7] ++ [.int 3, .int 4] := hstack.symm
  rcases List.append_inj' hsplit hlength with ⟨rfl, rfl⟩
  rcases hkeeps.active 5 _ hsix with ⟨inner, call, habove, hfunction, _⟩
  rcases hkeeps.returns 14 _ _ [.int 99] [.int 9, .int 4] hfinal ⟨rfl, rfl⟩ rfl rfl rfl with
    ⟨m₃, _, hreturned, hm₃⟩
  exact ⟨⟨.idle squareAndKeepProgram 2 .empty, _, [7, 3, 4], rfl, rfl, rfl, 0, rfl⟩, _, _, m₃,
    scope, _, hstep, hcalls, rfl, hbinds, hsix, rfl, ⟨inner, call, habove, hfunction⟩, hreturned,
    hm₃⟩

end StackLang
