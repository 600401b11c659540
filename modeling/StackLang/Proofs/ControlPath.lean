import StackLang.Proofs.Resolution

/-!
# Control is a path in the program

Where a running program is, read off its cursors.

A cursor holds what remains of a block and does not say which block that is. It need not: the
blocks can be told from below. The outermost cursor of a frame ranges over the body of the
frame, and each further one over a block of the statement that the cursor below it has passed
last, a branch, a condition or a loop body. `Path` says this of the cursors of a frame, and
names the statements that the innermost one has passed. The frames are tied together in the
same way. A frame that waits has passed a call last, and the frame above it is that of the
function and the place of this call: `CallStack.Linked`.

A step keeps all of this, `Machine.OnPath.of_step`, because every change to the cursors is a
change at their innermost end: a cursor moves on, is added above a statement that has just been
passed, or is removed. The two cursors of a loop take turns in the same place, above the loop.
So the number of cursors is bounded by how deep blocks are nested in the text, however often a
loop has come round: `Follows.length_le`.

## Main definitions

* `Stmt.Opens`: A statement runs a block in a role.
* `Path`: The cursors of a frame, from the body of the frame to the innermost block.
* `Follows`: Nothing remains in a frame, or its cursors are a path.
* `Awaits`: The statement passed last is the call of a frame above.
* `CallStack.Linked`: Every call has been made by the frame below it.
* `Machine.OnPath`: The control state is a path in the program.
* `nesting`: How deep blocks are nested in a block.

## Theorems

* `Path.advance`, `Path.enter`, `Path.exists_outer`: The changes at the innermost end.
* `follows_of_move`, `awaits_of_move`: What a move leaves is a path.
* `Machine.OnPath.of_step`: A step keeps control on a path.
* `Follows.length_le`: A path is not longer than blocks are nested.
* `onPath_of_inRunOf`: Control is on a path in every state of every run.
-/

namespace StackLang

variable {σ : Type}

/-- The loop as a statement. -/
def Loop.stmt (l : Loop) : Stmt := .loop l.condition l.body l.loc

/-- A statement runs a block in its own frame, in the given role. -/
inductive Stmt.Opens : Stmt → List Stmt → Role → Prop
  | branch {block : List Stmt} {loc : Location} : Opens (.ifThen block loc) block .sequence
  | block {block other : List Stmt} {loc : Location} :
      Opens (.ifElse block other loc) block .sequence
  | other {block other : List Stmt} {loc : Location} :
      Opens (.ifElse block other loc) other .sequence
  | condition {l : Loop} : Opens l.stmt l.condition (.condition l)
  | body {l : Loop} : Opens l.stmt l.body (.body l)

/-- The cursors, innermost first, are a path into `body`, and the innermost one has passed the
    given statements of its block: the outermost cursor ranges over `body`, and every other one
    over a block of the statement that the cursor below it has passed last. -/
inductive Path (body : List Stmt) : List Cursor → List Stmt → Prop
  | bottom {passed rest : List Stmt} (hbody : body = passed ++ rest) :
      Path body [⟨rest, .sequence⟩] passed
  | inner {c : Cursor} {outer : List Cursor} {before block passed rest : List Stmt} {s : Stmt}
      {role : Role} (houter : Path body (c :: outer) (before ++ [s])) (hopens : s.Opens block role)
      (hblock : block = passed ++ rest) :
      Path body (⟨rest, role⟩ :: c :: outer) passed

/-- Nothing remains in a frame with the given body, or its cursors are a path. -/
def Follows (body : List Stmt) (cs : List Cursor) : Prop := cs = [] ∨ ∃ passed, Path body cs passed

/-- The frame with these cursors has passed the call of `callee` last. -/
def Awaits (body : List Stmt) (cs : List Cursor) (callee : CallFrame) : Prop :=
  ∃ before, Path body cs (before ++ [.call callee.function.name callee.site])

namespace Path

variable {body passed rest : List Stmt} {role : Role} {s : Stmt} {c : Cursor}
  {outer : List Cursor}

/-- A statement is passed. -/
theorem advance (h : Path body (⟨s :: rest, role⟩ :: outer) passed) :
    Path body (⟨rest, role⟩ :: outer) (passed ++ [s]) := by
  cases h with
  | bottom hbody => exact .bottom (by rw [hbody, List.append_assoc, List.singleton_append])
  | inner houter hopens hblock =>
      exact .inner houter hopens (by rw [hblock, List.append_assoc, List.singleton_append])

/-- A block of the statement passed last is entered. -/
theorem enter {block before : List Stmt} (h : Path body (c :: outer) (before ++ [s]))
    (hopens : s.Opens block role) : Path body (⟨block, role⟩ :: c :: outer) [] :=
  .inner h hopens rfl

/-- Below a cursor there is nothing, or a path that has passed the statement of its block. -/
theorem exists_outer (h : Path body (⟨rest, role⟩ :: outer) passed) :
    (outer = [] ∧ role = .sequence ∧ body = passed ++ rest) ∨
      ∃ before s block, Path body outer (before ++ [s]) ∧ s.Opens block role ∧
        block = passed ++ rest := by
  cases h with
  | bottom hbody => exact .inl ⟨rfl, rfl, hbody⟩
  | inner houter hopens hblock => exact .inr ⟨_, _, _, houter, hopens, hblock⟩

theorem follows_outer (h : Path body (c :: outer) passed) : Follows body outer := by
  rcases h.exists_outer with ⟨rfl, _, _⟩ | ⟨before, s, block, houter, _, _⟩
  · exact .inl rfl
  · exact .inr ⟨_, houter⟩

/-- Below a cursor that belongs to a loop, that loop has been passed last. -/
theorem exists_outer_loop {l : Loop} (h : Path body (⟨rest, role⟩ :: outer) passed)
    (hrole : role = .condition l ∨ role = .body l) :
    ∃ before, Path body outer (before ++ [l.stmt]) := by
  rcases h.exists_outer with ⟨_, hseq, _⟩ | ⟨before, s, block, houter, hopens, _⟩
  · rcases hrole with rfl | rfl <;> cases hseq
  · rcases hrole with rfl | rfl
    · cases hopens
      exact ⟨before, houter⟩
    · cases hopens
      exact ⟨before, houter⟩

theorem exists_cons {cs : List Cursor} (h : Path body cs passed) : ∃ c outer, cs = c :: outer := by
  cases h with
  | bottom hbody => exact ⟨_, _, rfl⟩
  | inner houter hopens hblock => exact ⟨_, _, rfl⟩

/-- A block of the statement passed last is entered, whatever the cursors below are. -/
theorem follows_enter {cs : List Cursor} {block before : List Stmt}
    (h : Path body cs (before ++ [s])) (hopens : s.Opens block role) :
    Follows body (⟨block, role⟩ :: cs) := by
  rcases h.exists_cons with ⟨c, outer, rfl⟩
  exact .inr ⟨[], h.enter hopens⟩

end Path

section Moves

variable {look : String → Except ScopeError Function} {limit depth : Nat} {a b : Store σ}
  {body passed rest : List Stmt} {role : Role} {outer cs cs' : List Cursor}

theorem follows_of_moveEnd (hpath : Path body (⟨[], role⟩ :: outer) passed)
    (h : (moveEnd role a outer).cursors? = some cs') : Follows body cs' := by
  cases role with
  | sequence =>
      cases h
      exact hpath.follows_outer
  | condition l =>
      rcases hpath.exists_outer_loop (.inl rfl) with ⟨before, houter⟩
      rcases cursors?_of h with rfl | ⟨taken, rfl⟩
      · exact .inr ⟨_, houter⟩
      · cases taken with
        | false => exact .inr ⟨_, houter⟩
        | true => exact houter.follows_enter .body
  | body l =>
      -- The condition takes the place that the body had above the loop.
      cases h
      rcases hpath.exists_outer_loop (.inr rfl) with ⟨before, houter⟩
      exact houter.follows_enter .condition

theorem follows_of_moveStmt [Sink σ] {s : Stmt}
    (hpath : Path body (⟨s :: rest, role⟩ :: outer) passed)
    (h : (moveStmt look limit depth s a (⟨rest, role⟩ :: outer)).cursors? = some cs') :
    Follows body cs' := by
  have hnext := hpath.advance
  have hkept : Follows body (⟨rest, role⟩ :: outer) := .inr ⟨_, hnext⟩
  -- Most statements only move the cursor on.
  have hbasic : ∀ {r : EStateM.Result Fault (Store σ) Unit} {loc : Location},
      (Move.of loc (fun _ => ⟨rest, role⟩ :: outer) (⟨rest, role⟩ :: outer) r).cursors? =
        some cs' → Follows body cs' := by
    intro r loc hr
    rcases cursors?_of hr with rfl | ⟨_, rfl⟩ <;> exact hkept
  cases s with
  | ifThen block loc =>
      rcases cursors?_of h with rfl | ⟨taken, rfl⟩
      · exact hkept
      · cases taken with
        | false => exact hkept
        | true => exact hnext.follows_enter .branch
  | ifElse block other loc =>
      rcases cursors?_of h with rfl | ⟨taken, rfl⟩
      · exact hkept
      · cases taken with
        | false => exact hnext.follows_enter .other
        | true => exact hnext.follows_enter .block
  | loop condition body loc =>
      cases h
      exact hnext.follows_enter (.condition (l := ⟨condition, body, loc⟩))
  | call name site =>
      simp only [moveStmt] at h
      cases hopen : Store.openCall look limit depth name a with
      | ok entered c => rw [hopen] at h; cases h; exact hkept
      | error fault c => rw [hopen] at h; cases h; exact hkept
  | literal v loc => cases h; exact hkept
  | operator op loc => exact hbasic h
  | declare x loc => exact hbasic h
  | read x loc => exact hbasic h
  | assign x loc => exact hbasic h
  | function signature body => cases h; exact hkept
  | print loc => exact hbasic h

variable [Sink σ]

/-- The cursors that a move leaves in its frame are a path again. -/
theorem follows_of_move (hcs : Follows body cs)
    (h : (move look limit depth a cs).cursors? = some cs') : Follows body cs' := by
  rcases hcs with rfl | ⟨passed, hpath⟩
  · cases h
  · rcases cs with _ | ⟨⟨_ | ⟨s, rest⟩, role⟩, outer⟩
    · cases h
    · exact follows_of_moveEnd hpath h
    · exact follows_of_moveStmt hpath h

/-- A move into a call has passed that call last. -/
theorem awaits_of_move {f : Function} {scope : Scope} {site : Location} (hcs : Follows body cs)
    (hname : ∀ name, look name = .ok f → f.name = name)
    (h : move look limit depth a cs = .call b cs' f scope site) :
    look f.name = .ok f ∧ Awaits body cs' (.ofCall f scope site) := by
  rcases openCall_of_move h with ⟨name, rest, role, outer, rfl, hopen⟩
  have hlook := (openCall_eq_ok hopen).1
  simp only [move, moveStmt, hopen] at h
  cases h
  cases hname name hlook
  rcases hcs with hnil | ⟨passed, hpath⟩
  · cases hnil
  · exact ⟨hlook, passed, hpath.advance⟩

end Moves

/-- The block that the current frame runs. -/
def CallStack.block (p : Program) (c : CallStack) : List Stmt :=
  match c.calls with
  | [] => p.statements
  | call :: _ => call.function.body

/-- Every call is one of a function of the program, and has been made by the frame below it,
    which has passed the call last and waits. -/
inductive CallStack.Linked (p : Program) : CallStack → Prop
  | global {c : CallStack} (hcalls : c.calls = []) : Linked p c
  | call {c callers : CallStack} {call : CallFrame} (hpop : c.pop? = some (call, callers))
      (hbound : p.look call.function.name = .ok call.function)
      (hsite : Awaits (callers.block p) callers.current.cursors call)
      (hcallers : Linked p callers) : Linked p c

/-- The cursors of the current frame are a path in the block that it runs, and all other frames
    wait for the call above them. -/
structure Machine.OnPath (p : Program) (m : Machine σ) : Prop where
  current : Follows (m.calls.block p) m.calls.current.cursors
  linked : m.calls.Linked p

namespace CallStack

variable {p : Program} {c callers : CallStack} {call : CallFrame}

@[simp]
theorem block_setCurrent (c : CallStack) (f : Frame) : (c.setCurrent f).block p = c.block p := by
  rcases c with ⟨global, _ | ⟨call, outer⟩, depth, h⟩ <;> rfl

theorem Linked.setCurrent (h : c.Linked p) (f : Frame) : (c.setCurrent f).Linked p := by
  rcases c with ⟨global, _ | ⟨top, outer⟩, depth, hdepth⟩
  · exact .global rfl
  · cases h with
    | global hcalls => cases hcalls
    | call hpop hbound hsite hcallers =>
        -- The function and the place of a call are no part of what changes.
        cases hpop
        exact .call rfl hbound hsite hcallers

theorem Linked.push (h : c.Linked p) (hbound : p.look call.function.name = .ok call.function)
    (hsite : Awaits (c.block p) c.current.cursors call) : (c.push call).Linked p :=
  .call (pop?_push c call) hbound hsite h

theorem Linked.of_pop? (h : c.Linked p) (hpop : c.pop? = some (call, callers)) :
    p.look call.function.name = .ok call.function ∧
      Awaits (callers.block p) callers.current.cursors call ∧ callers.Linked p := by
  cases h with
  | global hcalls =>
      rcases c with ⟨global, calls, depth, hdepth⟩
      cases hcalls
      cases hpop
  | call hpop' hbound hsite hcallers =>
      rw [hpop] at hpop'
      cases hpop'
      exact ⟨hbound, hsite, hcallers⟩

theorem Linked.look_of_mem (h : c.Linked p) (hcall : call ∈ c.calls) :
    p.look call.function.name = .ok call.function := by
  induction h with
  | global hcalls =>
      rw [hcalls] at hcall
      cases hcall
  | @call c callers top hpop hbound _ _ ih =>
      rcases c with ⟨global, _ | ⟨top', outer⟩, depth, hdepth⟩
      · cases hpop
      · cases hpop
        rcases List.mem_cons.1 hcall with rfl | hcall
        · exact hbound
        · exact ih hcall

end CallStack

namespace Machine

variable {p : Program} {m : Machine σ}

theorem OnPath.place (h : m.OnPath p) {cs : List Cursor} (hcs : Follows (m.calls.block p) cs)
    (a : Store σ) : (m.place a cs).OnPath p := by
  refine ⟨?_, h.linked.setCurrent _⟩
  rw [current_place]
  exact (CallStack.block_setCurrent m.calls _).symm ▸ hcs

/-- The callers of a call that has ended go on after it, whatever is on their stack. -/
theorem OnPath.callers (h : m.OnPath p) {call : CallFrame} {callers : CallStack}
    (hpop : m.calls.pop? = some (call, callers)) :
    OnPath p ({ m with calls := callers } : Machine σ) := by
  rcases h.linked.of_pop? hpop with ⟨_, ⟨before, hpath⟩, hcallers⟩
  exact ⟨.inr ⟨_, hpath⟩, hcallers⟩

theorem OnPath.setStack (h : m.OnPath p) (s : Stack) : (m.setStack s).OnPath p := by
  rw [setStack_eq_place]
  exact h.place h.current _

variable [Sink σ]

/-- What a step leaves is on a path again, also if it fails. -/
theorem OnPath.of_step (h : m.OnPath p) (hlook : m.look = p.look) : m.step.machine.OnPath p := by
  rw [step_eq]
  cases hm : move m.look m.limit m.calls.depth m.store m.calls.current.cursors with
  | stay a cs => exact h.place (follows_of_move h.current (by rw [hm]; rfl)) a
  | call a cs f scope site =>
      have hplaced := h.place (follows_of_move h.current (by rw [hm]; rfl)) a
      rcases awaits_of_move h.current (fun name hname => (mem_of_look (hlook ▸ hname)).2) hm with
        ⟨hbound, hsite⟩
      refine ⟨.inr ⟨[], .bottom rfl⟩, hplaced.linked.push (hlook ▸ hbound) ?_⟩
      rw [current_place]
      exact (CallStack.block_setCurrent m.calls _).symm ▸ hsite
  | leave =>
      rcases apply_leave_cases m with
        ⟨_, hleave⟩ | ⟨call, callers, hpop, ⟨results, hleave⟩ | ⟨e, hleave⟩⟩
      · rw [hleave]
        exact h
      · rw [hleave]
        exact (h.callers hpop).setStack _
      · rw [hleave]
        exact h.callers hpop
  | fail e a cs => exact h.place (follows_of_move h.current (by rw [hm]; rfl)) a

theorem OnPath.of_reaches {m' : Machine σ} (h : m.OnPath p) (hlook : m.look = p.look)
    (hreach : m.Reaches m') : m'.OnPath p := by
  have hboth : m'.OnPath p ∧ m'.look = p.look := by
    refine reaches_induction (P := fun m => m.OnPath p ∧ m.look = p.look) ?_ hreach ⟨h, hlook⟩
    intro m m₁ hm hstep
    have hpath := hm.1.of_step hm.2
    rw [hstep] at hpath
    exact ⟨hpath, (look_of_step hstep).trans hm.2⟩
  exact hboth.1

omit [Sink σ] in
/-- At the start of a run nothing has been passed. -/
theorem onPath_loaded (m : Machine σ) (scope : Scope) (initial : List Integer) :
    (m.loaded scope initial).OnPath m.program :=
  ⟨.inr ⟨[], .bottom rfl⟩, .global rfl⟩

theorem InRunOf.onPath {limit : Nat} (h : m.InRunOf p limit) : m.OnPath p := by
  rcases h with ⟨m₀, start, initial, rfl, rfl, hload, hreach⟩
  rcases load_eq_ok hload with ⟨scope, hscope, rfl⟩
  exact (onPath_loaded m₀ scope initial).of_reaches (bound_of_globalScope hscope).1 hreach

/-- A program is over only where no call is active and nothing remains to be done. -/
theorem of_step_finished {m' : Machine σ} (h : m.step = .finished m') :
    m' = m ∧ m.calls.calls = [] ∧ m.calls.global.cursors = [] := by
  rw [step_eq] at h
  cases hm : move m.look m.limit m.calls.depth m.store m.calls.current.cursors with
  | stay a cs => rw [hm] at h; cases h
  | call a cs f scope site => rw [hm] at h; cases h
  | leave =>
      have hcursors := nil_of_move_leave hm
      rw [hm] at h
      rcases apply_leave_cases m with
        ⟨hdepth, hleave⟩ | ⟨call, callers, _, ⟨results, hleave⟩ | ⟨e, hleave⟩⟩
      · rw [hleave] at h
        cases h
        rw [CallStack.current_of_depth_eq_zero hdepth] at hcursors
        exact ⟨rfl, List.length_eq_zero_iff.1 (m.calls.depth_eq ▸ hdepth), hcursors⟩
      · rw [hleave] at h; cases h
      · rw [hleave] at h; cases h
  | fail e a cs => rw [hm] at h; cases h

end Machine

mutual

/-- How deep blocks are nested in a statement. The body of a function is run in a frame of its
    own and does not count. -/
def Stmt.nesting : Stmt → Nat
  | .ifThen block _ => StackLang.nesting block + 1
  | .ifElse block other _ => max (StackLang.nesting block) (StackLang.nesting other) + 1
  | .loop condition body _ => max (StackLang.nesting condition) (StackLang.nesting body) + 1
  | .literal _ _ | .operator _ _ | .declare _ _ | .read _ _ | .assign _ _ | .function _ _
  | .call _ _ | .print _ => 0

/-- How deep blocks are nested in a block. -/
def nesting : List Stmt → Nat
  | [] => 0
  | s :: ss => max s.nesting (nesting ss)

end

section Nesting

theorem nesting_of_mem {s : Stmt} {ss : List Stmt} (h : s ∈ ss) : s.nesting ≤ nesting ss := by
  induction ss with
  | nil => cases h
  | cons t ss ih =>
      rw [nesting]
      rcases List.mem_cons.1 h with rfl | h
      · exact Nat.le_max_left _ _
      · exact Nat.le_trans (ih h) (Nat.le_max_right _ _)

theorem Stmt.Opens.nesting_lt {s : Stmt} {block : List Stmt} {role : Role}
    (h : s.Opens block role) : StackLang.nesting block < s.nesting := by
  cases h with
  | branch => rw [Stmt.nesting]; omega
  | block => rw [Stmt.nesting]; omega
  | other => rw [Stmt.nesting]; omega
  | condition => rw [Loop.stmt, Stmt.nesting]; omega
  | body => rw [Loop.stmt, Stmt.nesting]; omega

/-- Each further cursor is one level deeper, so what is nested in its block is one less. -/
theorem Path.length_add_nesting_le {body passed : List Stmt} {c : Cursor} {outer : List Cursor}
    (h : Path body (c :: outer) passed) :
    outer.length + nesting (passed ++ c.rest) ≤ nesting body := by
  generalize hcs : c :: outer = cs at h
  induction h generalizing c outer with
  | @bottom passed rest hbody =>
      cases hcs
      have hall : ([] : List Cursor).length + nesting (passed ++ rest) = nesting body := by
        rw [hbody, List.length_nil, Nat.zero_add]
      exact Nat.le_of_eq hall
  | @inner d outer before block passed rest s role houter hopens hblock ih =>
      cases hcs
      have hs : s.nesting ≤ nesting (before ++ [s] ++ d.rest) := by
        refine nesting_of_mem (List.mem_append_left _ ?_)
        exact List.mem_append_right _ (List.mem_singleton.2 rfl)
      have hlt := hopens.nesting_lt
      have hle := ih rfl
      rw [hblock] at hlt
      change outer.length + 1 + nesting (passed ++ rest) ≤ nesting body
      omega

/-- A path has at most one cursor more than blocks are nested. -/
theorem Follows.length_le {body : List Stmt} {cs : List Cursor} (h : Follows body cs) :
    cs.length ≤ 1 + nesting body := by
  rcases h with rfl | ⟨passed, hpath⟩
  · exact Nat.zero_le _
  · rcases hpath.exists_cons with ⟨c, outer, rfl⟩
    have hle := hpath.length_add_nesting_le
    rw [List.length_cons]
    omega

theorem CallStack.Linked.length_le {p : Program} {c : CallStack} (h : c.Linked p)
    (hcurrent : Follows (c.block p) c.current.cursors) :
    c.global.cursors.length ≤ 1 + nesting p.statements ∧
      ∀ call ∈ c.calls, call.cursors.length ≤ 1 + nesting call.function.body := by
  induction h with
  | @global c hcalls =>
      rcases c with ⟨global, calls, depth, hdepth⟩
      cases hcalls
      exact ⟨hcurrent.length_le, fun call hcall => absurd hcall List.not_mem_nil⟩
  | @call c callers call hpop _ hsite _ ih =>
      rcases c with ⟨global, _ | ⟨top, outer⟩, depth, hdepth⟩
      · cases hpop
      · cases hpop
        rcases hsite with ⟨before, hpath⟩
        rcases ih (.inr ⟨_, hpath⟩) with ⟨hglobal, hcalls⟩
        exact ⟨hglobal, List.forall_mem_cons.2 ⟨hcurrent.length_le, hcalls⟩⟩

end Nesting

/-- In every state of every run, and in the state that its last step leaves, control is a path
    in the program: the cursors of the current frame are a path in the block that it runs, and
    every other frame has passed the call of the frame above it last. The functions of the
    active calls are bound in the global scope. No frame holds more cursors than one and how
    deep blocks are nested in its body. The program is over only if no call is active and
    nothing remains to be done, and where nothing remains in the frame of a call, the call is
    left. -/
theorem onPath_of_inRunOf [Sink σ] {p : Program} {limit : Nat} {m : Machine σ}
    (h : m.InRunOf p limit) :
    m.OnPath p ∧ m.step.machine.OnPath p ∧
      (∀ call ∈ m.calls.calls, m.look call.function.name = .ok call.function) ∧
      m.calls.global.cursors.length ≤ 1 + nesting p.statements ∧
      (∀ call ∈ m.calls.calls, call.cursors.length ≤ 1 + nesting call.function.body) ∧
      (∀ m', m.step = .finished m' → m' = m ∧ m.calls.calls = [] ∧ m.calls.global.cursors = []) ∧
      ∀ call callers, m.calls.current.cursors = [] → m.calls.pop? = some (call, callers) →
        m.step = m.leaveCall call callers := by
  have hpath := h.onPath
  have hlook := h.look_eq
  rcases hpath.linked.length_le hpath.current with ⟨hglobal, hcalls⟩
  refine ⟨hpath, hpath.of_step hlook, ?_, hglobal, hcalls, ?_, ?_⟩
  · intro call hcall
    rw [hlook]
    exact hpath.linked.look_of_mem hcall
  · intro m' hstep
    exact Machine.of_step_finished hstep
  · intro call callers hcursors hpop
    rw [Machine.step_eq, hcursors, move, Move.apply, hpop]

/-- A function that counts its argument down in a loop, and hands back whether it has got to
    zero. -/
def exhausting : Function :=
  ⟨⟨"EXHAUST", ["n"], [], .one, ⟨1, 1⟩⟩,
    [.loop [.read "n" ⟨2, 7⟩, .literal (.int 0) ⟨2, 9⟩, .operator .gt ⟨2, 11⟩]
      [.read "n" ⟨2, 19⟩, .literal (.int 1) ⟨2, 21⟩, .operator .sub ⟨2, 23⟩,
        .assign "n" ⟨2, 25⟩] ⟨2, 1⟩,
      .read "n" ⟨3, 1⟩, .literal (.int 0) ⟨3, 3⟩, .operator .eq ⟨3, 5⟩]⟩

/-- A program that calls the function in the condition of a loop in a branch. -/
def exhaustingLoop : Program :=
  ⟨[.function exhausting.toSignature exhausting.body, .literal (.bool true) ⟨5, 1⟩,
    .ifThen [.loop [.literal (.int 2) ⟨6, 7⟩, .call "EXHAUST" ⟨6, 9⟩] [.print ⟨6, 23⟩] ⟨6, 1⟩]
      ⟨5, 6⟩], []⟩

/-- In the second round of the inner loop the function has two cursors and the program, which
    waits in the condition of the outer loop, has three. That is as many as the nesting of
    blocks allows. -/
theorem onPath_exhaustingLoop :
    ∃ m : Machine Transcript, m.InRunOf exhaustingLoop 1 ∧ m.OnPath exhaustingLoop ∧
      m.calls.global.cursors.length = 3 ∧ 1 + nesting exhaustingLoop.statements = 3 ∧
      m.calls.calls.map (fun call => (call.function.name, call.site, call.cursors.length)) =
        [("EXHAUST", ⟨6, 9⟩, 2)] ∧ 1 + nesting exhausting.body = 2 := by
  have h : Machine.InRunOf _ exhaustingLoop 1 :=
    ⟨.idle exhaustingLoop 1 Transcript.empty, _, [], rfl, rfl, rfl, 16, rfl⟩
  exact ⟨_, h, (onPath_of_inRunOf h).1, rfl, by decide, rfl, by decide⟩

end StackLang
