import Mathlib.Data.List.Forall2
import StackLang.Proofs.Bindings

/-!
# Machines that can not be told apart

Two machines can differ in ways that no step ever brings to light.

A scope keeps its bindings in the order of their declaration, but a program only looks names
up: `Scope.Agrees`. And the declaration of a function is a statement without effect, so it does
not matter where in the rest of a block it stands, or whether it stands there at all:
`Cursor.bare` leaves it out. Machines are alike if this is all that they differ in, frame by
frame.

Alike machines are out of step with one another, since one of them can be at a declaration
where the other is not. A step over a declaration leads to a machine that is alike. So each can
first go on to where no declaration comes next, which happens after finitely many steps, and
there the two take the same step: `Machine.Alike.step`. Hence all that one machine reaches is
alike to something that the other reaches, and a run of one ends as a run of the other does.

## Main definitions

* `Scope.Agrees`: Scopes that answer every look-up alike.
* `Scope.Uniform`, `Store.Uniform`: What does the same to scopes or stores that agree.
* `withoutFunctions`, `Cursor.bare`: Statements and cursors without declarations of functions.
* `Settled`: No declaration of a function comes next.
* `Frame.Alike`, `CallStack.Alike`, `Machine.Alike`: What can not be told apart.

## Theorems

* `Scope.uniform_allocate`, `Scope.uniform_assign`, `Scope.uniform_foldlM`: Changes of scopes.
* `Store.uniform_perform`, `Store.uniform_openCall`: Statements and calls.
* `Machine.Alike.step`: Alike machines without a declaration ahead take the same step.
* `Machine.Alike.settle`: A machine goes on to where no declaration comes next.
* `Machine.Alike.reaches`: What one machine reaches, the other does.
* `Machine.Alike.runFor`: A run ends in the same way.
-/

namespace StackLang

namespace Scope

/-- The scopes answer every look-up alike. -/
def Agrees (s t : Scope) : Prop := ∀ x, s.find? x = t.find? x

variable {s t : Scope}

theorem Agrees.refl (s : Scope) : s.Agrees s := fun _ => rfl

theorem Agrees.symm (h : s.Agrees t) : t.Agrees s := fun x => (h x).symm

theorem Agrees.value (h : s.Agrees t) (x : String) : s.value x = t.value x := by
  rw [Scope.value, Scope.value, h x]

theorem Agrees.function (h : s.Agrees t) : s.function = t.function := by
  funext x
  rw [Scope.function, Scope.function, h x]

theorem Agrees.put (h : s.Agrees t) (x : String) (v : Value) :
    (s.put x v).Agrees (t.put x v) := by
  intro y
  rw [find?_put, find?_put, h x, h y]

theorem Agrees.append (h : s.Agrees t) (x : String) (b : Binding) :
    Agrees ⟨s.entries ++ [(x, b)]⟩ ⟨t.entries ++ [(x, b)]⟩ := by
  intro y
  rw [find?_append, find?_append, h y]

/-- The same error, or scopes that agree. -/
inductive SameChange {ε : Type} : Except ε Scope → Except ε Scope → Prop where
  | ok {s t : Scope} (h : s.Agrees t) : SameChange (.ok s) (.ok t)
  | error (e : ε) : SameChange (.error e) (.error e)

/-- The change does the same to scopes that agree. -/
def Uniform {ε : Type} (change : Scope → Except ε Scope) : Prop :=
  ∀ s t, s.Agrees t → SameChange (change s) (change t)

theorem uniform_declare (x : String) (b : Binding) : Uniform fun s => s.declare x b := by
  intro s t h
  simp only [declare, h x]
  cases t.find? x with
  | none => exact .ok (h.append x b)
  | some b' => exact .error _

theorem uniform_allocate (x : String) : Uniform fun s => s.allocate x := by
  intro s t h
  simp only [allocate, h x]
  cases t.find? x with
  | none => exact uniform_declare x _ s t h
  | some b =>
      cases b with
      | cell v => exact .ok (h.put x .zero)
      | function f => exact .error _

theorem uniform_assign (x : String) (v : Value) : Uniform fun s => s.assign x v := by
  intro s t h
  simp only [assign, h x]
  cases t.find? x with
  | none => exact .error _
  | some b =>
      cases b with
      | cell w => exact .ok (h.put x v)
      | function f => exact .error _

theorem Uniform.mapError {ε ε' : Type} {change : Scope → Except ε Scope} (h : Uniform change)
    (blame : ε → ε') : Uniform fun s => (change s).mapError blame := by
  intro s t hst
  have hsame := h s t hst
  beta_reduce
  generalize change s = x, change t = y at hsame ⊢
  cases hsame with
  | ok hagrees => exact .ok hagrees
  | error e => exact .error (blame e)

theorem uniform_foldlM {ε α : Type} {change : Scope → α → Except ε Scope}
    (h : ∀ a, Uniform fun s => change s a) (as : List α) :
    Uniform fun s => as.foldlM change s := by
  induction as with
  | nil => exact fun s t hst => .ok hst
  | cons a as ih =>
      intro s t hst
      have hsame : SameChange (change s a) (change t a) := h a s t hst
      simp only [List.foldlM_cons]
      generalize change s a = x, change t a = y at hsame ⊢
      cases hsame with
      | ok hagrees => exact ih _ _ hagrees
      | error e => exact .error e

end Scope

variable {σ : Type}

namespace Store

/-- The stores have the same stack and sink, and scopes that agree. -/
structure Agrees (a b : Store σ) : Prop where
  scope : a.scope.Agrees b.scope
  stack : a.stack = b.stack
  sink : a.sink = b.sink

/-- The same result, with stores that agree. -/
inductive SameResult {α : Type} :
    EStateM.Result Fault (Store σ) α → EStateM.Result Fault (Store σ) α → Prop where
  | ok {v : α} {a b : Store σ} (h : a.Agrees b) : SameResult (.ok v a) (.ok v b)
  | error {fault : Fault} {a b : Store σ} (h : a.Agrees b) :
      SameResult (.error fault a) (.error fault b)

/-- The action does the same to stores that agree. -/
def Uniform {α : Type} (x : EStateM Fault (Store σ) α) : Prop :=
  ∀ a b, a.Agrees b → SameResult (x a) (x b)

theorem uniform_push (v : Value) : Uniform (push v : EStateM Fault (Store σ) Unit) := by
  intro a b h
  rw [push, push, h.stack]
  exact .ok ⟨h.scope, rfl, h.sink⟩

theorem uniform_popBool : Uniform (popBool : EStateM Fault (Store σ) Bool) := by
  intro a b h
  rw [popBool, popBool, h.stack]
  cases b.stack.pop? with
  | none => exact .error h
  | some top =>
      rcases top with ⟨v, below⟩
      cases v with
      | int n => exact .error ⟨h.scope, rfl, h.sink⟩
      | bool c => exact .ok ⟨h.scope, rfl, h.sink⟩

theorem uniform_onScope {change : Scope → Except ScopeError Scope}
    (hchange : Scope.Uniform change) :
    Uniform (onScope change : EStateM Fault (Store σ) Unit) := by
  intro a b h
  have hsame := hchange _ _ h.scope
  simp only [onScope]
  generalize change a.scope = x, change b.scope = y at hsame ⊢
  cases hsame with
  | ok hscope => exact .ok ⟨hscope, h.stack, h.sink⟩
  | error e => exact .error h

theorem uniform_operate (op : Operator) : Uniform (operate op : EStateM Fault (Store σ) Unit) := by
  intro a b h
  rw [operate, operate, h.stack]
  cases b.stack.popPair? with
  | none => exact .error h
  | some top =>
      rcases top with ⟨lhs, rhs, below⟩
      simp only []
      cases op.apply lhs rhs with
      | ok v => exact .ok ⟨h.scope, rfl, h.sink⟩
      | error fault => exact .error ⟨h.scope, rfl, h.sink⟩

theorem uniform_load (x : String) : Uniform (load x : EStateM Fault (Store σ) Unit) := by
  intro a b h
  rw [load, load, h.scope.value, h.stack]
  cases b.scope.value x with
  | ok v => exact .ok ⟨h.scope, rfl, h.sink⟩
  | error e => exact .error h

theorem uniform_save (x : String) : Uniform (save x : EStateM Fault (Store σ) Unit) := by
  intro a b h
  simp only [save, pop]
  rw [h.stack]
  cases b.stack.pop? with
  | none => exact .error h
  | some top =>
      rcases top with ⟨v, below⟩
      exact uniform_onScope (Scope.uniform_assign x v) _ _ ⟨h.scope, rfl, h.sink⟩

theorem uniform_openCall (look : String → Except ScopeError Function) (limit depth : Nat)
    (name : String) :
    Uniform (openCall look limit depth name : EStateM Fault (Store σ) (Function × Scope)) := by
  intro a b h
  simp only [openCall]
  cases look name with
  | error e => exact .error h
  | ok function =>
      by_cases hlimit : limit ≤ depth
      · simp only [hlimit, if_true]
        exact .error h
      · simp only [hlimit, if_false, h.stack]
        cases b.stack.popMany? function.parameters.length with
        | none => exact .error h
        | some taken =>
            rcases taken with ⟨arguments, below⟩
            simp only []
            cases callScope function arguments with
            | error e => exact .error ⟨h.scope, rfl, h.sink⟩
            | ok s => exact .ok ⟨h.scope, rfl, h.sink⟩

variable [Sink σ]

theorem uniform_print (loc : Location) : Uniform (print loc : EStateM Fault (Store σ) Unit) := by
  intro a b h
  simp only [print, pop]
  rw [h.stack]
  cases b.stack.pop? with
  | none => exact .error h
  | some top =>
      rcases top with ⟨v, below⟩
      simp only [h.sink]
      cases Sink.emit ⟨v, loc⟩ b.sink with
      | ok u s => exact .ok ⟨h.scope, rfl, rfl⟩
      | error reason s => exact .error ⟨h.scope, rfl, rfl⟩

theorem uniform_perform (s : Stmt) : Uniform (perform s : EStateM Fault (Store σ) Unit) := by
  cases s with
  | literal v loc => exact uniform_push v
  | operator op loc => exact uniform_operate op
  | declare x loc => exact uniform_onScope (Scope.uniform_allocate x)
  | read x loc => exact uniform_load x
  | assign x loc => exact uniform_save x
  | print loc => exact uniform_print loc
  | ifThen | ifElse | loop | function | call => exact fun a b h => .ok h

end Store

/-- The statements that do not declare functions. -/
def withoutFunctions (ss : List Stmt) : List Stmt := ss.filter fun s => s.function?.isNone

/-- The cursor without the declarations of functions that remain. -/
def Cursor.bare (c : Cursor) : Cursor := ⟨withoutFunctions c.rest, c.role⟩

/-- No declaration of a function comes next. -/
def Settled (cs : List Cursor) : Prop :=
  ∀ signature body rest role outer, cs ≠ ⟨.function signature body :: rest, role⟩ :: outer

section Cursors

variable {cs ds : List Cursor}

theorem withoutFunctions_cons {s : Stmt} (h : s.function? = none) (ss : List Stmt) :
    withoutFunctions (s :: ss) = s :: withoutFunctions ss := by
  rw [withoutFunctions, List.filter_cons_of_pos (by rw [h]; rfl), withoutFunctions]

theorem function?_of_settled {s : Stmt} {rest : List Stmt} {role : Role}
    (h : Settled (⟨s :: rest, role⟩ :: cs)) : s.function? = none := by
  cases s with
  | function signature body => exact absurd rfl (h signature body rest role cs)
  | literal | operator | declare | read | assign => rfl
  | ifThen | ifElse | loop | call | print => rfl

theorem exists_of_not_settled (h : ¬ Settled cs) :
    ∃ signature body rest role outer, cs = ⟨.function signature body :: rest, role⟩ :: outer := by
  simpa only [Settled, not_forall, not_not] using h

/-- Entering a block makes no difference. -/
theorem map_bare_cons (h : cs.map Cursor.bare = ds.map Cursor.bare) (c : Cursor) :
    (c :: cs).map Cursor.bare = (c :: ds).map Cursor.bare :=
  congrArg (c.bare :: ·) h

theorem map_bare_ite (h : cs.map Cursor.bare = ds.map Cursor.bare) (c : Cursor) (enters : Bool) :
    (if enters then c :: cs else cs).map Cursor.bare =
      (if enters then c :: ds else ds).map Cursor.bare := by
  cases enters with
  | true => exact map_bare_cons h c
  | false => exact h

theorem bare_cons {s : Stmt} (h : s.function? = none) (rest : List Stmt) (role : Role) :
    Cursor.bare ⟨s :: rest, role⟩ = ⟨s :: withoutFunctions rest, role⟩ :=
  congrArg (Cursor.mk · role) (withoutFunctions_cons h rest)

/-- Where no declaration comes next and the cursors are the same without declarations, the
    same comes next: nothing at all, the end of a block, or a statement. -/
theorem settled_cases (hcs : Settled cs) (hds : Settled ds)
    (h : cs.map Cursor.bare = ds.map Cursor.bare) :
    (cs = [] ∧ ds = []) ∨
    (∃ role cs' ds', cs = ⟨[], role⟩ :: cs' ∧ ds = ⟨[], role⟩ :: ds' ∧
      cs'.map Cursor.bare = ds'.map Cursor.bare) ∨
    ∃ s rest rest' role cs' ds', cs = ⟨s :: rest, role⟩ :: cs' ∧ ds = ⟨s :: rest', role⟩ :: ds' ∧
      (⟨rest, role⟩ :: cs').map Cursor.bare = (⟨rest', role⟩ :: ds').map Cursor.bare := by
  rcases cs with _ | ⟨⟨_ | ⟨s, rest⟩, role⟩, cs⟩
  · exact .inl ⟨rfl, List.map_eq_nil_iff.1 h.symm⟩
  · rcases ds with _ | ⟨⟨_ | ⟨s', rest'⟩, role'⟩, ds⟩
    · cases h
    · rcases List.cons.inj h with ⟨hbare, hrest⟩
      cases hbare
      exact .inr (.inl ⟨role, cs, ds, rfl, rfl, hrest⟩)
    · rw [List.map_cons, List.map_cons, bare_cons (function?_of_settled hds)] at h
      cases h
  · have hs := function?_of_settled hcs
    rcases ds with _ | ⟨⟨_ | ⟨s', rest'⟩, role'⟩, ds⟩
    · cases h
    · rw [List.map_cons, List.map_cons, bare_cons hs] at h
      cases h
    · rw [List.map_cons, List.map_cons, bare_cons hs, bare_cons (function?_of_settled hds)] at h
      rcases List.cons.inj h with ⟨hbare, hrest⟩
      rcases Cursor.mk.inj hbare with ⟨hstatements, rfl⟩
      rcases List.cons.inj hstatements with ⟨rfl, hremaining⟩
      refine .inr (.inr ⟨s, rest, rest', role, cs, ds, rfl, rfl, ?_⟩)
      rw [List.map_cons, List.map_cons, hrest]
      exact congrArg (Cursor.mk · role :: _) hremaining

end Cursors

/-- The same move, with stores that agree and cursors that differ in declarations only. -/
inductive Move.Alike : Move σ → Move σ → Prop where
  | stay {a b : Store σ} {cs ds : List Cursor} (h : a.Agrees b)
      (hcs : cs.map Cursor.bare = ds.map Cursor.bare) : Alike (.stay a cs) (.stay b ds)
  | call {a b : Store σ} {cs ds : List Cursor} {function : Function} {scope : Scope}
      {site : Location} (h : a.Agrees b) (hcs : cs.map Cursor.bare = ds.map Cursor.bare) :
      Alike (.call a cs function scope site) (.call b ds function scope site)
  | leave : Alike .leave .leave
  | fail {e : RuntimeError} {a b : Store σ} {cs ds : List Cursor} (h : a.Agrees b)
      (hcs : cs.map Cursor.bare = ds.map Cursor.bare) : Alike (.fail e a cs) (.fail e b ds)

section Moves

variable {a b : Store σ} {cs ds : List Cursor}

theorem Move.Alike.of {α : Type} {x : EStateM Fault (Store σ) α} (hx : Store.Uniform x)
    (h : a.Agrees b) (loc : Location) {next next' : α → List Cursor}
    (hnext : ∀ v, (next v).map Cursor.bare = (next' v).map Cursor.bare)
    (hcs : cs.map Cursor.bare = ds.map Cursor.bare) :
    Move.Alike (Move.of loc next cs (x a)) (Move.of loc next' ds (x b)) := by
  have hsame := hx a b h
  generalize x a = r, x b = r' at hsame ⊢
  cases hsame with
  | ok hagrees => exact .stay hagrees (hnext _)
  | error hagrees => exact .fail hagrees hcs

theorem moveEnd_alike (h : a.Agrees b) (hcs : cs.map Cursor.bare = ds.map Cursor.bare)
    (role : Role) : Move.Alike (moveEnd role a cs) (moveEnd role b ds) := by
  cases role with
  | sequence => exact .stay h hcs
  | condition loop => exact .of Store.uniform_popBool h loop.loc (map_bare_ite hcs _) hcs
  | body loop => exact .stay h (map_bare_cons hcs _)

variable [Sink σ]

theorem moveStmt_alike (look : String → Except ScopeError Function) (limit depth : Nat)
    (h : a.Agrees b) (hcs : cs.map Cursor.bare = ds.map Cursor.bare) (s : Stmt) :
    Move.Alike (moveStmt look limit depth s a cs) (moveStmt look limit depth s b ds) := by
  cases s with
  | ifThen block loc => exact .of Store.uniform_popBool h loc (map_bare_ite hcs _) hcs
  | ifElse block other loc =>
      exact .of Store.uniform_popBool h loc (fun _ => map_bare_cons hcs _) hcs
  | loop condition body loc => exact .stay h (map_bare_cons hcs _)
  | call name site =>
      have hsame := Store.uniform_openCall look limit depth name a b h
      simp only [moveStmt]
      generalize Store.openCall look limit depth name a = r,
        Store.openCall look limit depth name b = r' at hsame ⊢
      cases hsame with
      | ok hagrees => exact .call hagrees hcs
      | error hagrees => exact .fail hagrees hcs
  | literal | operator | declare | read | assign | function | print =>
      simp only [moveStmt]
      exact .of (Store.uniform_perform _) h _ (fun _ => hcs) hcs

/-- Where no declaration comes next, the same move is made. -/
theorem move_alike (look : String → Except ScopeError Function) (limit depth : Nat)
    (h : a.Agrees b) (hcs : cs.map Cursor.bare = ds.map Cursor.bare) (hc : Settled cs)
    (hd : Settled ds) :
    Move.Alike (move look limit depth a cs) (move look limit depth b ds) := by
  rcases settled_cases hc hd hcs with ⟨rfl, rfl⟩ | ⟨role, cs', ds', rfl, rfl, hrest⟩ |
    ⟨s, rest, rest', role, cs', ds', rfl, rfl, hrest⟩
  · exact .leave
  · exact moveEnd_alike h hrest role
  · exact moveStmt_alike look limit depth h hrest s

end Moves

/-- The frames have the same stack, scopes that agree, and cursors that differ in declarations
    of functions only. -/
structure Frame.Alike (f g : Frame) : Prop where
  stack : f.stack = g.stack
  scope : f.scope.Agrees g.scope
  cursors : f.cursors.map Cursor.bare = g.cursors.map Cursor.bare

/-- The calls are of the same function at the same place, with alike frames. -/
structure CallFrame.Alike (c d : CallFrame) : Prop where
  frame : c.toFrame.Alike d.toFrame
  function : c.function = d.function
  site : c.site = d.site

/-- The call stacks are alike frame by frame. -/
structure CallStack.Alike (c d : CallStack) : Prop where
  global : c.global.Alike d.global
  calls : List.Forall₂ CallFrame.Alike c.calls d.calls

theorem Frame.Alike.refl (f : Frame) : f.Alike f := ⟨rfl, .refl _, rfl⟩

theorem Frame.Alike.symm {f g : Frame} (h : f.Alike g) : g.Alike f :=
  ⟨h.stack.symm, h.scope.symm, h.cursors.symm⟩

theorem CallFrame.Alike.refl (c : CallFrame) : c.Alike c := ⟨.refl _, rfl, rfl⟩

theorem CallFrame.Alike.symm {c d : CallFrame} (h : c.Alike d) : d.Alike c :=
  ⟨h.frame.symm, h.function.symm, h.site.symm⟩

namespace CallStack.Alike

variable {c d : CallStack}

theorem symm (h : c.Alike d) : d.Alike c :=
  ⟨h.global.symm, h.calls.flip.imp fun _ _ hcall => CallFrame.Alike.symm hcall⟩

theorem depth_eq (h : c.Alike d) : c.depth = d.depth := by
  rw [c.depth_eq, d.depth_eq, h.calls.length_eq]

theorem current (h : c.Alike d) : c.current.Alike d.current := by
  rcases c with ⟨g, calls, depth, hdepth⟩
  rcases d with ⟨g', calls', depth', hdepth'⟩
  rcases h with ⟨hglobal, _ | ⟨hcall, _⟩⟩
  · exact hglobal
  · exact hcall.frame

theorem setCurrent (h : c.Alike d) {f g : Frame} (hfg : f.Alike g) :
    (c.setCurrent f).Alike (d.setCurrent g) := by
  rcases c with ⟨global, calls, depth, hdepth⟩
  rcases d with ⟨global', calls', depth', hdepth'⟩
  rcases h with ⟨hglobal, _ | ⟨hcall, houter⟩⟩
  · exact ⟨hfg, .nil⟩
  · exact ⟨hglobal, .cons ⟨hfg, hcall.function, hcall.site⟩ houter⟩

theorem push (h : c.Alike d) (call : CallFrame) : (c.push call).Alike (d.push call) :=
  ⟨h.global, .cons (.refl call) h.calls⟩

/-- Both are without calls, or have alike innermost ones, and are alike without them. -/
theorem pop?_cases (h : c.Alike d) :
    (c.pop? = none ∧ d.pop? = none) ∨
    ∃ call call' callers callers', c.pop? = some (call, callers) ∧
      d.pop? = some (call', callers') ∧ call.Alike call' ∧ callers.Alike callers' := by
  rcases c with ⟨global, calls, depth, hdepth⟩
  rcases d with ⟨global', calls', depth', hdepth'⟩
  rcases h with ⟨hglobal, _ | ⟨hcall, houter⟩⟩
  · exact .inl ⟨rfl, rfl⟩
  · exact .inr ⟨_, _, _, _, rfl, rfl, hcall, hglobal, houter⟩

end CallStack.Alike

/-- The machines have the same limit and sink, and alike call stacks. -/
structure Machine.Alike (m m' : Machine σ) : Prop where
  limit : m.limit = m'.limit
  sink : m.sink = m'.sink
  calls : m.calls.Alike m'.calls

/-- The same step, with alike machines. -/
inductive Step.Alike : Step σ → Step σ → Prop where
  | running {m m' : Machine σ} (h : m.Alike m') : Alike (.running m) (.running m')
  | finished {m m' : Machine σ} (h : m.Alike m') : Alike (.finished m) (.finished m')
  | failed {e : RuntimeError} {m m' : Machine σ} (h : m.Alike m') :
      Alike (.failed e m) (.failed e m')

namespace Machine.Alike

variable {m m' : Machine σ}

theorem symm (h : m.Alike m') : m'.Alike m := ⟨h.limit.symm, h.sink.symm, h.calls.symm⟩

theorem store (h : m.Alike m') : m.store.Agrees m'.store :=
  ⟨h.calls.current.scope, h.calls.current.stack, h.sink⟩

theorem look (h : m.Alike m') : m.look = m'.look := h.calls.global.scope.function

theorem globalStack (h : m.Alike m') : m.globalStack = m'.globalStack :=
  congrArg Stack.toList h.calls.global.stack

theorem place (h : m.Alike m') {a b : Store σ} (hab : a.Agrees b) {cs ds : List Cursor}
    (hcs : cs.map Cursor.bare = ds.map Cursor.bare) : (m.place a cs).Alike (m'.place b ds) :=
  ⟨h.limit, hab.sink, h.calls.setCurrent ⟨hab.stack, hab.scope, hcs⟩⟩

/-- The end of a call hands the same values back. -/
theorem leaveCall (h : m.Alike m') {call call' : CallFrame} (hcall : call.Alike call')
    {callers callers' : CallStack} (hcallers : callers.Alike callers') :
    Step.Alike (m.leaveCall call callers) (m'.leaveCall call' callers') := by
  have hcaller : Machine.Alike { m with calls := callers } { m' with calls := callers' } :=
    ⟨h.limit, h.sink, hcallers⟩
  simp only [Machine.leaveCall, hcall.frame.stack, hcall.function, hcall.site]
  cases call'.stack.popMany? call'.function.arity.count with
  | none => exact .failed hcaller
  | some taken =>
      have hstack : callers.current.stack.extend taken.1 = callers'.current.stack.extend taken.1 :=
        congrArg (·.extend taken.1) hcallers.current.stack
      exact .running ⟨h.limit, h.sink, hcallers.setCurrent
        ⟨hstack, hcallers.current.scope, hcallers.current.cursors⟩⟩

theorem apply (h : m.Alike m') {mv mv' : Move σ} (hmv : mv.Alike mv') :
    Step.Alike (mv.apply m) (mv'.apply m') := by
  cases hmv with
  | stay hab hcs => exact .running (h.place hab hcs)
  | call hab hcs =>
      have hplace := h.place hab hcs
      exact .running ⟨hplace.limit, hplace.sink, hplace.calls.push _⟩
  | leave =>
      simp only [Move.apply]
      rcases h.calls.pop?_cases with ⟨hm, hm'⟩ |
        ⟨call, call', callers, callers', hm, hm', hcall, hcallers⟩
      · rw [hm, hm']
        exact .finished h
      · rw [hm, hm']
        exact h.leaveCall hcall hcallers
  | fail hab hcs => exact .failed (h.place hab hcs)

variable [Sink σ]

/-- Alike machines at which no declaration comes next take the same step. -/
theorem step (h : m.Alike m') (hm : Settled m.calls.current.cursors)
    (hm' : Settled m'.calls.current.cursors) : Step.Alike m.step m'.step := by
  rw [step_eq, step_eq, h.look, h.limit, h.calls.depth_eq]
  exact h.apply (move_alike _ _ _ h.store h.calls.current.cursors hm hm')

omit [Sink σ] in
/-- Which declarations remain in the current frame makes no difference. -/
theorem setCursors (h : m.Alike m') {cs : List Cursor}
    (hcs : cs.map Cursor.bare = m.calls.current.cursors.map Cursor.bare) :
    (m.place m.store cs).Alike m' := by
  have hplace : (m.place m.store cs).Alike (m'.place m'.store m'.calls.current.cursors) :=
    h.place h.store (hcs.trans h.calls.current.cursors)
  have hself : m'.place m'.store m'.calls.current.cursors = m' := by
    simp only [Machine.place, Machine.store]
    rw [CallStack.setCurrent_current]
  rwa [hself] at hplace

/-- A step over a declaration leads to an alike machine. -/
theorem skip (h : m.Alike m') {signature : Signature} {body rest : List Stmt} {role : Role}
    {outer : List Cursor}
    (hcs : m.calls.current.cursors = ⟨.function signature body :: rest, role⟩ :: outer) :
    m.step = .running (m.place m.store (⟨rest, role⟩ :: outer)) ∧
      (m.place m.store (⟨rest, role⟩ :: outer)).Alike m' := by
  constructor
  · rw [step_eq, hcs]
    rfl
  · refine h.setCursors ?_
    rw [hcs]
    rfl

/-- A machine goes on over the declarations that come next, and stays alike. Each of them is
    one statement less in the innermost block. -/
theorem settle {m : Machine σ} (h : m.Alike m') :
    ∃ m₁, m.Reaches m₁ ∧ Settled m₁.calls.current.cursors ∧ m₁.Alike m' := by
  by_cases hm : Settled m.calls.current.cursors
  · exact ⟨m, .refl m, hm, h⟩
  · rcases exists_of_not_settled hm with ⟨signature, body, rest, role, outer, hcs⟩
    rcases h.skip hcs with ⟨hstep, halike⟩
    rcases settle halike with ⟨m₁, hreach, hsettled, hm₁⟩
    exact ⟨m₁, (Reaches.single hstep).trans hreach, hsettled, hm₁⟩
termination_by (m.calls.current.cursors.headD (.sequence [])).rest.length
decreasing_by
  rw [hcs, current_place]
  exact Nat.lt_succ_self _

/-- Where no declaration comes next, the other machine comes to where it takes the same step. -/
theorem exists_step (h : m.Alike m') (hm : Settled m.calls.current.cursors) :
    ∃ m₁', m'.Reaches m₁' ∧ Step.Alike m.step m₁'.step := by
  rcases h.symm.settle with ⟨m₁', hreach, hsettled, halike⟩
  exact ⟨m₁', hreach, halike.symm.step hm hsettled⟩

/-- What one machine reaches, the other does, but for what makes no difference. -/
theorem reaches (h : m.Alike m') {m₁ : Machine σ} (hreach : m.Reaches m₁) :
    ∃ m₁', m'.Reaches m₁' ∧ m₁.Alike m₁' := by
  refine reaches_induction (P := fun m₁ => ∃ m₁', m'.Reaches m₁' ∧ m₁.Alike m₁') ?_ hreach
    ⟨m', .refl m', h⟩
  rintro m₁ m₂ ⟨m₁', hm', halike⟩ hstep
  by_cases hm₁ : Settled m₁.calls.current.cursors
  · rcases halike.exists_step hm₁ with ⟨m₂', hm₂', hsame⟩
    generalize hstep' : m₂'.step = step at hsame
    rw [hstep] at hsame
    cases hsame with
    | running hnext => exact ⟨_, (hm'.trans hm₂').trans (.single hstep'), hnext⟩
  · -- This machine goes over a declaration, and the other one need not move.
    rcases exists_of_not_settled hm₁ with ⟨signature, body, rest, role, outer, hcs⟩
    rcases halike.skip hcs with ⟨hskip, hnext⟩
    rw [hskip] at hstep
    cases hstep
    exact ⟨m₁', hm', hnext⟩

/-- A run of one machine ends as a run of the other does. -/
theorem runFor (h : m.Alike m') {n : Nat} {result : Except RuntimeError Unit} {last : Machine σ}
    (hrun : Machine.runFor n m = some (result, last)) :
    ∃ k last', Machine.runFor k m' = some (result, last') ∧ last.Alike last' := by
  rcases runFor_eq_some_iff.1 ⟨n, hrun⟩ with ⟨m₁, hreach, hend⟩
  rcases h.reaches hreach with ⟨m₁', hreach', halike⟩
  -- A step over a declaration is not the end of a run.
  have hm₁ : Settled m₁.calls.current.cursors := by
    intro signature body rest role outer hcs
    rw [(halike.skip hcs).1] at hend
    cases hend
  rcases halike.exists_step hm₁ with ⟨m₂', hm₂', hsame⟩
  have hends : ∃ last', m₂'.step.outcome? = some (result, last') ∧ last.Alike last' := by
    generalize m₁.step = x, m₂'.step = y at hend hsame ⊢
    cases hsame with
    | running hlast => cases hend
    | finished hlast => cases hend; exact ⟨_, rfl, hlast⟩
    | failed hlast => cases hend; exact ⟨_, rfl, hlast⟩
  rcases hends with ⟨last', hend', hlast⟩
  rcases runFor_eq_some_iff.2 ⟨m₂', hreach'.trans hm₂', hend'⟩ with ⟨k, hk⟩
  exact ⟨k, last', hk, hlast⟩

end Machine.Alike

end StackLang
