import StackLang.Proofs.Move
import StackLang.Proofs.Trace

/-!
# Bindings

What the operations on scopes do to the names that are bound, and what follows
for the functions of a running program.

A scope is seen through `Scope.find?`. Each operation that succeeds changes the
look-up of its own name only, and a name that is bound to a function stays bound
to it. So the functions that can be called never change during a run:
`Machine.look_of_reaches`. They are those that `globalScope` has bound before the
first step, which are the functions declared directly at the top level, each
under its own name: `bound_of_globalScope`.

## Main definitions

* `Scope.Holds`: A name is bound to a variable.
* `Scope.Grows`: Variables may have been added or changed, and nothing else.
* `GrowsScope`: An action lets the scope grow at most.
* `Program.lookup`: The function of a name, among those of the top level.
* `Program.look`: The same, as a scope answers.
* `Machine.loaded`: The machine at the start of a run.
* `Machine.InRunOf`: A machine occurs in a run of a program.

## Theorems

* `Scope.find?_declare`, `Scope.find?_allocate`, `Scope.find?_assign`: The look-ups
  after an operation.
* `Scope.grows_allocate`, `Scope.grows_assign`: Storing lets a scope grow.
* `growsScope_perform`, `growsScope_openCall`: Statements and calls let a scope grow
  at most.
* `Machine.look_of_reaches`, `Machine.limit_of_reaches`: The functions and the limit
  are the same in all reachable states.
* `bound_of_globalScope`: The functions and variables at the start of a run.
-/

namespace StackLang

namespace Scope

variable {s t : Scope} {x : String}

theorem find?_declare {b : Binding} (h : s.declare x b = .ok t) (y : String) :
    t.find? y = if y = x then some b else s.find? y := by
  unfold declare at h
  cases hx : s.find? x with
  | some b' => rw [hx] at h; cases h
  | none =>
      rw [hx] at h
      cases h
      rw [find?_append]
      by_cases hy : y = x
      · rw [if_pos hy, if_pos hy, hy, hx, Option.none_or]
      · rw [if_neg hy, if_neg hy, Option.or_none]

theorem find?_of_declare {b : Binding} (h : s.declare x b = .ok t) : s.find? x = none := by
  unfold declare at h
  cases hx : s.find? x with
  | some b' => rw [hx] at h; cases h
  | none => rfl

theorem find?_allocate (h : s.allocate x = .ok t) (y : String) :
    t.find? y = if y = x then some (.cell .zero) else s.find? y := by
  unfold allocate at h
  cases hx : s.find? x with
  | none =>
      rw [hx] at h
      exact find?_declare h y
  | some b =>
      cases b with
      | function f => rw [hx] at h; cases h
      | cell v =>
          -- A variable that exists starts over.
          rw [hx] at h
          cases h
          rw [find?_put, hx]
          rfl

theorem find?_assign {v : Value} (h : s.assign x v = .ok t) (y : String) :
    t.find? y = if y = x then some (.cell v) else s.find? y := by
  unfold assign at h
  cases hx : s.find? x with
  | none => rw [hx] at h; cases h
  | some b =>
      cases b with
      | function f => rw [hx] at h; cases h
      | cell w =>
          rw [hx] at h
          cases h
          rw [find?_put, hx]
          rfl

/-- The name `x` is bound to a variable. -/
def Holds (s : Scope) (x : String) : Prop := ∃ v, s.find? x = some (.cell v)

/-- The scope `t` has the variables of `s`, with whatever values, and perhaps more;
    its functions are those of `s`. -/
structure Grows (s t : Scope) : Prop where
  function : t.function = s.function
  holds : ∀ y, s.Holds y → t.Holds y

theorem Grows.refl (s : Scope) : s.Grows s := ⟨rfl, fun _ h => h⟩

/-- A scope grows when a value is stored under a name that is no function. -/
theorem grows_of_find? {v : Value} (hx : ∀ f, s.find? x ≠ some (.function f))
    (ht : ∀ y, t.find? y = if y = x then some (.cell v) else s.find? y) : s.Grows t := by
  constructor
  · funext y
    unfold Scope.function
    rw [ht y]
    by_cases hy : y = x
    · -- The name is refused as a function before and after, for the same reason.
      rw [if_pos hy, hy]
      cases hsx : s.find? x with
      | none => rfl
      | some b =>
          cases b with
          | cell w => rfl
          | function f => exact absurd hsx (hx f)
    · rw [if_neg hy]
  · intro y hy
    by_cases hyx : y = x
    · exact ⟨v, by rw [ht y, if_pos hyx]⟩
    · rcases hy with ⟨w, hw⟩
      exact ⟨w, by rw [ht y, if_neg hyx, hw]⟩

theorem grows_allocate (h : s.allocate x = .ok t) : s.Grows t := by
  refine grows_of_find? ?_ (find?_allocate h)
  intro f hf
  rw [allocate, hf] at h
  cases h

theorem grows_assign {v : Value} (h : s.assign x v = .ok t) : s.Grows t := by
  refine grows_of_find? ?_ (find?_assign h)
  intro f hf
  rw [assign, hf] at h
  cases h

end Scope

section Actions

variable {σ : Type}

/-- An action lets the scope grow at most, whether it succeeds or fails. -/
def GrowsScope {α : Type} (x : EStateM Fault (Store σ) α) : Prop :=
  ∀ a, match x a with
    | .ok _ b => a.scope.Grows b.scope
    | .error _ b => a.scope.Grows b.scope

theorem growsScope_onScope {change : Scope → Except ScopeError Scope}
    (h : ∀ s t, change s = .ok t → s.Grows t) :
    GrowsScope (Store.onScope change : EStateM Fault (Store σ) Unit) := by
  intro a
  unfold Store.onScope
  cases hc : change a.scope with
  | ok s => exact h a.scope s hc
  | error e => exact Scope.Grows.refl a.scope

theorem growsScope_popBool : GrowsScope (Store.popBool : EStateM Fault (Store σ) Bool) := by
  intro a
  unfold Store.popBool
  cases a.stack.pop? with
  | none => exact Scope.Grows.refl a.scope
  | some top =>
      rcases top with ⟨v, below⟩
      cases v <;> exact Scope.Grows.refl a.scope

theorem growsScope_operate (op : Operator) :
    GrowsScope (Store.operate op : EStateM Fault (Store σ) Unit) := by
  intro a
  unfold Store.operate
  cases a.stack.popPair? with
  | none => exact Scope.Grows.refl a.scope
  | some top =>
      rcases top with ⟨lhs, rhs, below⟩
      simp only []
      cases op.apply lhs rhs <;> exact Scope.Grows.refl a.scope

theorem growsScope_load (x : String) :
    GrowsScope (Store.load x : EStateM Fault (Store σ) Unit) := by
  intro a
  unfold Store.load
  cases a.scope.value x <;> exact Scope.Grows.refl a.scope

theorem growsScope_save (x : String) :
    GrowsScope (Store.save x : EStateM Fault (Store σ) Unit) := by
  intro a
  unfold Store.save Store.pop
  cases a.stack.pop? with
  | none => exact Scope.Grows.refl a.scope
  | some top =>
      rcases top with ⟨v, below⟩
      exact growsScope_onScope (fun _ _ h => Scope.grows_assign h) { a with stack := below }

theorem growsScope_print [Sink σ] (loc : Location) :
    GrowsScope (Store.print loc : EStateM Fault (Store σ) Unit) := by
  intro a
  unfold Store.print Store.pop
  cases a.stack.pop? with
  | none => exact Scope.Grows.refl a.scope
  | some top =>
      rcases top with ⟨v, below⟩
      simp only []
      cases Sink.emit ⟨v, loc⟩ a.sink <;> exact Scope.Grows.refl a.scope

theorem growsScope_perform [Sink σ] (s : Stmt) :
    GrowsScope (Store.perform s : EStateM Fault (Store σ) Unit) := by
  cases s with
  | operator op loc => exact growsScope_operate op
  | declare x loc => exact growsScope_onScope fun _ _ h => Scope.grows_allocate h
  | read x loc => exact growsScope_load x
  | assign x loc => exact growsScope_save x
  | print loc => exact growsScope_print loc
  | literal | ifThen | ifElse | loop | function | call => exact fun a => Scope.Grows.refl a.scope

theorem growsScope_openCall (look : String → Except ScopeError Function) (limit depth : Nat)
    (name : String) :
    GrowsScope (Store.openCall look limit depth name : EStateM Fault (Store σ) _) := by
  intro a
  unfold Store.openCall
  cases look name with
  | error e => exact Scope.Grows.refl a.scope
  | ok function =>
      by_cases hlimit : limit ≤ depth
      · simp only [hlimit, if_true]
        exact Scope.Grows.refl a.scope
      · simp only [hlimit, if_false]
        cases a.stack.popMany? function.parameters.length with
        | none => exact Scope.Grows.refl a.scope
        | some taken =>
            rcases taken with ⟨arguments, below⟩
            simp only []
            cases callScope function arguments <;> exact Scope.Grows.refl a.scope

end Actions

/-- The store that a move leaves in the frame it happens in. -/
def Move.store? {σ : Type} : Move σ → Option (Store σ)
  | .stay a _ => some a
  | .call a _ _ _ _ => some a
  | .leave => none
  | .fail _ a _ => some a

section Moves

variable {σ : Type}

theorem grows_of_store?_of {α : Type} {x : EStateM Fault (Store σ) α} (hx : GrowsScope x)
    {a b : Store σ} {loc : Location} {next : α → List Cursor} {kept : List Cursor}
    (h : (Move.of loc next kept (x a)).store? = some b) : a.scope.Grows b.scope := by
  have hxa := hx a
  cases hr : x a with
  | ok v c =>
      rw [hr] at h hxa
      cases h
      exact hxa
  | error fault c =>
      rw [hr] at h hxa
      cases h
      exact hxa

theorem Machine.look_place_of_grows {m : Machine σ} {a : Store σ} (cs : List Cursor)
    (h : m.store.scope.Grows a.scope) : (m.place a cs).look = m.look := by
  rw [← Machine.look_store m cs, Machine.look_place, Machine.look_place]
  -- In a call the global scope is not the one that changes.
  by_cases hdepth : m.calls.depth = 0
  · rw [if_pos hdepth, if_pos hdepth, h.function]
  · rw [if_neg hdepth, if_neg hdepth]

theorem Machine.look_of_leaveCall {m m' : Machine σ} {call : CallFrame} {callers : CallStack}
    (hpop : m.calls.pop? = some (call, callers)) (h : m.leaveCall call callers = .running m') :
    m'.look = m.look := by
  have hglobal : callers.global = m.calls.global := by
    rcases hm : m.calls with ⟨global, calls, depth, hdepth⟩
    rw [hm] at hpop
    cases calls with
    | nil => cases hpop
    | cons top outer => cases hpop; rfl
  unfold leaveCall at h
  cases hresults : call.stack.popMany? call.function.arity.count with
  | none => simp only [hresults] at h; cases h
  | some taken =>
      simp only [hresults] at h
      cases h
      -- The caller's frame gets another stack and keeps its scope.
      rw [look, setStack, CallStack.global_setCurrent]
      by_cases hdepth : callers.depth = 0
      · rw [if_pos hdepth, CallStack.current_of_depth_eq_zero hdepth, hglobal, look]
      · rw [if_neg hdepth, hglobal, look]

variable [Sink σ]

theorem grows_of_moveStmt {look : String → Except ScopeError Function} {limit depth : Nat}
    {s : Stmt} {a b : Store σ} {cs : List Cursor}
    (h : (moveStmt look limit depth s a cs).store? = some b) : a.scope.Grows b.scope := by
  cases s with
  | ifThen block loc => exact grows_of_store?_of growsScope_popBool h
  | ifElse block other loc => exact grows_of_store?_of growsScope_popBool h
  | loop condition body loc =>
      cases h
      exact Scope.Grows.refl _
  | call name site =>
      have hopen := growsScope_openCall look limit depth name a
      simp only [moveStmt] at h
      cases hr : Store.openCall look limit depth name a with
      | ok entered c =>
          rw [hr] at h hopen
          cases h
          exact hopen
      | error fault c =>
          rw [hr] at h hopen
          cases h
          exact hopen
  | literal v loc => cases h; exact Scope.Grows.refl _
  | operator op loc => exact grows_of_store?_of (growsScope_perform (.operator op loc)) h
  | declare x loc => exact grows_of_store?_of (growsScope_perform (.declare x loc)) h
  | read x loc => exact grows_of_store?_of (growsScope_perform (.read x loc)) h
  | assign x loc => exact grows_of_store?_of (growsScope_perform (.assign x loc)) h
  | function signature body => cases h; exact Scope.Grows.refl _
  | print loc => exact grows_of_store?_of (growsScope_perform (.print loc)) h

/-- In the frame of a step the scope grows at most. -/
theorem grows_of_move {look : String → Except ScopeError Function} {limit depth : Nat}
    {a b : Store σ} {cs : List Cursor}
    (h : (move look limit depth a cs).store? = some b) : a.scope.Grows b.scope := by
  cases cs with
  | nil => cases h
  | cons c cs =>
      rcases c with ⟨rest, role⟩
      cases rest with
      | cons s rest => exact grows_of_moveStmt h
      | nil =>
          cases role with
          | sequence => cases h; exact Scope.Grows.refl _
          | condition loop => exact grows_of_store?_of growsScope_popBool h
          | body loop => cases h; exact Scope.Grows.refl _

/-- A step keeps the functions that can be called. -/
theorem Machine.look_of_step {m m' : Machine σ} (h : m.step = .running m') :
    m'.look = m.look := by
  rw [Machine.step_eq] at h
  cases hmove : move m.look m.limit m.calls.depth m.store m.calls.current.cursors with
  | stay a cs =>
      rw [hmove] at h
      cases h
      exact look_place_of_grows cs (grows_of_move (by rw [hmove]; rfl))
  | call a cs function scope site =>
      rw [hmove] at h
      cases h
      exact look_place_of_grows cs (grows_of_move (by rw [hmove]; rfl))
  | leave =>
      rw [hmove, Move.apply] at h
      cases hpop : m.calls.pop? with
      | none => rw [hpop] at h; cases h
      | some top =>
          rw [hpop] at h
          exact look_of_leaveCall hpop h
  | fail e a cs => rw [hmove] at h; cases h

theorem Machine.look_of_reaches {m m' : Machine σ} (h : m.Reaches m') : m'.look = m.look :=
  reaches_induction (P := fun m' => m'.look = m.look)
    (fun _ _ hlook hstep => (look_of_step hstep).trans hlook) h rfl

/-- A step keeps the limit on active calls. -/
theorem Machine.limit_of_step {m m' : Machine σ} (h : m.step = .running m') :
    m'.limit = m.limit := by
  rw [Machine.step_eq] at h
  cases hmove : move m.look m.limit m.calls.depth m.store m.calls.current.cursors with
  | stay a cs => rw [hmove] at h; cases h; rfl
  | call a cs function scope site => rw [hmove] at h; cases h; rfl
  | leave =>
      rw [hmove] at h
      rcases apply_leave_cases m with
        ⟨_, hleave⟩ | ⟨call, callers, _, ⟨results, hleave⟩ | ⟨e, hleave⟩⟩
      · rw [hleave] at h; cases h
      · rw [hleave] at h; cases h; rfl
      · rw [hleave] at h; cases h
  | fail e a cs => rw [hmove] at h; cases h

theorem Machine.limit_of_reaches {m m' : Machine σ} (h : m.Reaches m') : m'.limit = m.limit :=
  reaches_induction (P := fun m' => m'.limit = m.limit)
    (fun _ _ hlimit hstep => (limit_of_step hstep).trans hlimit) h rfl

end Moves

/-- The function of a name, among those of the top level. -/
def Program.lookup (p : Program) (x : String) : Option Function :=
  p.functions.find? fun f => f.name = x

/-- The function of a name, as a scope answers. -/
def Program.look (p : Program) (x : String) : Except ScopeError Function :=
  match p.lookup x with
  | some f => .ok f
  | none => .error (.undefinedName x)

section Start

variable {ε α : Type} {s t : Scope}

theorem mapError_eq_ok {ε' : Type} {x : Except ε α} {blame : ε → ε'} {a : α} :
    x.mapError blame = .ok a ↔ x = .ok a := by
  cases x with
  | error e => exact ⟨nofun, nofun⟩
  | ok b => exact ⟨fun h => congrArg _ (Except.ok.inj h), fun h => congrArg _ (Except.ok.inj h)⟩

/-- The look-ups after names have been bound one by one. -/
theorem find?_of_declareAll {bind : Scope → α → Except ε Scope} {key : α → String}
    {binding : α → Binding}
    (hbind : ∀ s a t, bind s a = .ok t ↔ s.declare (key a) (binding a) = .ok t) {as : List α}
    (h : as.foldlM bind s = .ok t) (y : String) :
    t.find? y = (s.find? y).or ((as.find? fun a => key a = y).map binding) := by
  induction as generalizing s with
  | nil =>
      cases h
      simp only [List.find?_nil, Option.map_none, Option.or_none]
  | cons a as ih =>
      rw [List.foldlM_cons] at h
      cases ha : bind s a with
      | error e => rw [ha] at h; cases h
      | ok u =>
          rw [ha] at h
          have hdeclare := (hbind s a u).1 ha
          rw [ih h, Scope.find?_declare hdeclare, List.find?_cons]
          by_cases hy : key a = y
          · -- The name was free, so it is found where it has just been bound.
            subst hy
            rw [if_pos rfl, Scope.find?_of_declare hdeclare]
            simp only [decide_true, Option.some_or, Option.none_or, Option.map_some]
          · rw [if_neg fun hc => hy hc.symm]
            simp only [hy, decide_false]

/-- Allocating variables one by one keeps what is bound and adds the variables. -/
theorem grows_of_allocateAll {bind : Scope → String → Except ε Scope}
    (hbind : ∀ s x t, bind s x = .ok t ↔ s.allocate x = .ok t) {xs : List String}
    (h : xs.foldlM bind s = .ok t) : s.Grows t ∧ ∀ x ∈ xs, t.Holds x := by
  induction xs generalizing s with
  | nil =>
      cases h
      exact ⟨Scope.Grows.refl _, fun x hx => absurd hx List.not_mem_nil⟩
  | cons x xs ih =>
      rw [List.foldlM_cons] at h
      cases hx : bind s x with
      | error e => rw [hx] at h; cases h
      | ok u =>
          rw [hx] at h
          have hallocate := (hbind s x u).1 hx
          rcases ih h with ⟨hgrows, hholds⟩
          have hu := Scope.grows_allocate hallocate
          have hux : u.Holds x := ⟨.zero, by rw [Scope.find?_allocate hallocate, if_pos rfl]⟩
          refine ⟨⟨hgrows.function.trans hu.function, fun y hy => hgrows.holds y (hu.holds y hy)⟩,
            ?_⟩
          intro y hy
          rcases List.mem_cons.1 hy with rfl | hy
          · exact hgrows.holds y hux
          · exact hholds y hy

theorem mem_of_look {p : Program} {x : String} {f : Function} (h : p.look x = .ok f) :
    f ∈ p.functions ∧ f.name = x := by
  unfold Program.look at h
  cases hlookup : p.lookup x with
  | none => rw [hlookup] at h; cases h
  | some g =>
      rw [hlookup] at h
      cases h
      have hname := List.find?_some hlookup
      exact ⟨List.mem_of_find?_eq_some hlookup, of_decide_eq_true hname⟩

theorem lookup_of_look {p : Program} {x : String} {reason : ScopeError}
    (h : p.look x = .error reason) :
    reason = .undefinedName x ∧ ∀ f ∈ p.functions, f.name ≠ x := by
  unfold Program.look at h
  cases hlookup : p.lookup x with
  | some f => rw [hlookup] at h; cases h
  | none =>
      rw [hlookup] at h
      cases h
      refine ⟨rfl, fun f hf hname => ?_⟩
      exact List.find?_eq_none.1 hlookup f hf (decide_eq_true hname)

/-- The functions that can be looked up once those of the top level have been bound. -/
theorem function_of_bindFunctions {p : Program} {blame : Function → ScopeError → RuntimeError}
    (h : p.functions.foldlM (fun s f => (s.declare f.name (.function f)).mapError (blame f))
      Scope.empty = .ok s) : s.function = p.look := by
  funext x
  have hx := find?_of_declareAll (fun _ _ _ => mapError_eq_ok) h x
  rw [Scope.find?_empty, Option.none_or] at hx
  rw [Scope.function, hx, Program.look, Program.lookup]
  cases p.functions.find? fun f => f.name = x <;> rfl

/-- At the start of a run the functions are those of the top level, and the global
    variables exist. -/
theorem bound_of_globalScope {p : Program} (h : globalScope p = .ok s) :
    s.function = p.look ∧ ∀ x ∈ p.globals, s.Holds x := by
  unfold globalScope at h
  cases hfs : p.functions.foldlM (fun s f =>
      (s.declare f.name (.function f)).mapError fun e => (⟨e.fault, f.loc⟩ : RuntimeError))
      Scope.empty with
  | error e => rw [hfs] at h; cases h
  | ok u =>
      rw [hfs] at h
      rcases grows_of_allocateAll (fun _ _ _ => mapError_eq_ok) h with ⟨hgrows, hholds⟩
      exact ⟨hgrows.function.trans (function_of_bindFunctions hfs), hholds⟩

end Start

namespace Machine

variable {σ : Type}

/-- The machine at the start of a run, with its bindings. -/
def loaded (m : Machine σ) (scope : Scope) (initial : List Integer) : Machine σ :=
  { m with calls := .ofGlobal scope (.ofList (initial.map .int)) m.program.statements }

theorem load_eq {m : Machine σ} {scope : Scope} (h : globalScope m.program = .ok scope)
    (initial : List Integer) : m.load initial = .ok (m.loaded scope initial) := by
  rw [load, h]
  rfl

theorem load_eq_ok {m start : Machine σ} {initial : List Integer}
    (h : m.load initial = .ok start) :
    ∃ scope, globalScope m.program = .ok scope ∧ start = m.loaded scope initial := by
  cases hscope : globalScope m.program with
  | error e => rw [load, hscope] at h; cases h
  | ok scope =>
      rw [load_eq hscope] at h
      cases h
      exact ⟨scope, rfl, rfl⟩

/-- The machine `m` occurs in a run of the program `p` under the given limit. -/
def InRunOf [Sink σ] (m : Machine σ) (p : Program) (limit : Nat) : Prop :=
  ∃ (m₀ start : Machine σ) (initial : List Integer), m₀.program = p ∧ m₀.limit = limit ∧
    m₀.load initial = .ok start ∧ start.Reaches m

variable [Sink σ] {m : Machine σ} {p : Program} {limit : Nat}

theorem InRunOf.look_eq (h : m.InRunOf p limit) : m.look = p.look := by
  rcases h with ⟨m₀, start, initial, rfl, _, hload, hreach⟩
  rcases load_eq_ok hload with ⟨scope, hscope, rfl⟩
  exact (look_of_reaches hreach).trans (bound_of_globalScope hscope).1

theorem InRunOf.limit_eq (h : m.InRunOf p limit) : m.limit = limit := by
  rcases h with ⟨m₀, start, initial, _, rfl, hload, hreach⟩
  rcases load_eq_ok hload with ⟨scope, _, rfl⟩
  rw [limit_of_reaches hreach, loaded]

end Machine

end StackLang
