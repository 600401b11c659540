import StackLang.Proofs.Move

/-!
# Maps between sinks

Two runs that differ in their sinks only, and what they have in common.

A map from the states of one sink to those of another is a homomorphism when it
does not matter whether a value is handed over before or after the map: the same
values are taken, the same are refused for the same reasons, and the states go on
corresponding. Nothing else of a store is looked at when a value is printed, and
nothing but a print looks at the sink, so every move commutes with such a map:
`move_mapSink`.

The map that matters here puts a transcript after another one. So a transcript
that is not empty at first only gets longer, by what the empty one would have
recorded.

## Main definitions

* `mapState`: A result with another state.
* `Sink.Hom`: A map that commutes with handing a value over.
* `Store.mapSink`, `Move.mapSink`: A store and a move with the sink mapped.
* `Store.Commutes`: An action on one kind of store does what it does on another.
* `Transcript.after`: A transcript after another one.

## Theorems

* `Store.commutes_perform`, `Store.commutes_openCall`: Statements and calls commute
  with a homomorphism.
* `move_mapSink`: Moves commute with a homomorphism.
* `Transcript.hom_after`: Putting a transcript after another is a homomorphism.
* `Transcript.toList_after`: What it does to the printed values.
-/

namespace StackLang

variable {σ τ : Type}

/-- A result with another state. -/
def mapState {ε α : Type} (f : σ → τ) : EStateM.Result ε σ α → EStateM.Result ε τ α
  | .ok v s => .ok v (f s)
  | .error e s => .error e (f s)

/-- A map between sinks that commutes with handing a value over. -/
def Sink.Hom [Sink σ] [Sink τ] (f : σ → τ) : Prop :=
  ∀ p s, Sink.emit p (f s) = mapState f (Sink.emit p s)

namespace Store

/-- The store with the sink mapped. -/
def mapSink (f : σ → τ) (a : Store σ) : Store τ := ⟨a.scope, a.stack, f a.sink⟩

/-- The action `y` does on a mapped store what `x` does on the store itself. -/
def Commutes {α : Type} (f : σ → τ) (x : EStateM Fault (Store σ) α)
    (y : EStateM Fault (Store τ) α) : Prop :=
  ∀ a, y (a.mapSink f) = mapState (mapSink f) (x a)

section Actions

variable {f : σ → τ}

theorem commutes_popBool : Commutes f popBool popBool := by
  intro a
  simp only [popBool, mapSink]
  cases a.stack.pop? with
  | none => rfl
  | some top =>
      rcases top with ⟨v, below⟩
      cases v <;> rfl

theorem commutes_onScope (change : Scope → Except ScopeError Scope) :
    Commutes f (onScope change) (onScope change) := by
  intro a
  simp only [onScope, mapSink]
  cases change a.scope <;> rfl

theorem commutes_operate (op : Operator) : Commutes f (operate op) (operate op) := by
  intro a
  simp only [operate, mapSink]
  cases a.stack.popPair? with
  | none => rfl
  | some top =>
      rcases top with ⟨lhs, rhs, below⟩
      simp only []
      cases op.apply lhs rhs <;> rfl

theorem commutes_load (x : String) : Commutes f (load x) (load x) := by
  intro a
  simp only [load, mapSink]
  cases a.scope.value x <;> rfl

theorem commutes_save (x : String) : Commutes f (save x) (save x) := by
  intro a
  simp only [save, pop, mapSink]
  cases a.stack.pop? with
  | none => rfl
  | some top =>
      rcases top with ⟨v, below⟩
      exact commutes_onScope (fun s => s.assign x v) { a with stack := below }

theorem commutes_openCall (look : String → Except ScopeError Function) (limit depth : Nat)
    (name : String) :
    Commutes f (openCall look limit depth name) (openCall look limit depth name) := by
  intro a
  simp only [openCall, mapSink]
  cases look name with
  | error e => rfl
  | ok function =>
      by_cases hlimit : limit ≤ depth
      · simp only [hlimit, if_true]
        rfl
      · simp only [hlimit, if_false]
        cases a.stack.popMany? function.parameters.length with
        | none => rfl
        | some taken =>
            rcases taken with ⟨arguments, below⟩
            simp only []
            cases callScope function arguments <;> rfl

variable [Sink σ] [Sink τ]

/-- Only here the sink is looked at. -/
theorem commutes_print (hf : Sink.Hom f) (loc : Location) :
    Commutes f (print loc) (print loc) := by
  intro a
  simp only [print, pop, mapSink]
  cases a.stack.pop? with
  | none => rfl
  | some top =>
      rcases top with ⟨v, below⟩
      simp only []
      rw [hf]
      cases Sink.emit ⟨v, loc⟩ a.sink <;> rfl

theorem commutes_perform {s : Stmt} (hf : ∀ loc, s = .print loc → Sink.Hom f) :
    Commutes f (perform s) (perform s) := by
  cases s with
  | operator op loc => exact commutes_operate op
  | declare x loc => exact commutes_onScope fun s => s.allocate x
  | read x loc => exact commutes_load x
  | assign x loc => exact commutes_save x
  | print loc => exact commutes_print (hf loc rfl) loc
  | literal | ifThen | ifElse | loop | function | call => exact fun a => rfl

end Actions

end Store

/-- The move with the sink mapped. -/
def Move.mapSink (f : σ → τ) : Move σ → Move τ
  | .stay a cs => .stay (a.mapSink f) cs
  | .call a cs function scope site => .call (a.mapSink f) cs function scope site
  | .leave => .leave
  | .fail e a cs => .fail e (a.mapSink f) cs

section Moves

variable {f : σ → τ}

theorem Move.of_mapState {α : Type} (loc : Location) (next : α → List Cursor)
    (kept : List Cursor) (r : EStateM.Result Fault (Store σ) α) :
    Move.of loc next kept (mapState (Store.mapSink f) r) =
      (Move.of loc next kept r).mapSink f := by
  cases r <;> rfl

theorem moveEnd_mapSink (role : Role) (a : Store σ) (cs : List Cursor) :
    moveEnd role (a.mapSink f) cs = (moveEnd role a cs).mapSink f := by
  cases role with
  | sequence => rfl
  | condition loop => simp only [moveEnd, Store.commutes_popBool a, Move.of_mapState]
  | body loop => rfl

variable [Sink σ] [Sink τ]

/-- Only a print needs a homomorphism. -/
theorem moveStmt_mapSink {s : Stmt} (hf : ∀ loc, s = .print loc → Sink.Hom f)
    (look : String → Except ScopeError Function) (limit depth : Nat) (a : Store σ)
    (cs : List Cursor) :
    moveStmt look limit depth s (a.mapSink f) cs =
      (moveStmt look limit depth s a cs).mapSink f := by
  cases s with
  | ifThen block loc => simp only [moveStmt, Store.commutes_popBool a, Move.of_mapState]
  | ifElse block other loc => simp only [moveStmt, Store.commutes_popBool a, Move.of_mapState]
  | loop condition body loc => rfl
  | call name site =>
      simp only [moveStmt, Store.commutes_openCall look limit depth name a]
      cases Store.openCall look limit depth name a <;> rfl
  | literal | operator | declare | read | assign | function | print =>
      simp only [moveStmt, Store.commutes_perform hf a, Move.of_mapState]

/-- The move of a mapped store is the mapped move. -/
theorem move_mapSink (hf : Sink.Hom f) (look : String → Except ScopeError Function)
    (limit depth : Nat) (a : Store σ) (cs : List Cursor) :
    move look limit depth (a.mapSink f) cs = (move look limit depth a cs).mapSink f := by
  cases cs with
  | nil => rfl
  | cons c cs =>
      rcases c with ⟨rest, role⟩
      cases rest with
      | nil => exact moveEnd_mapSink role a cs
      | cons s rest => exact moveStmt_mapSink (fun _ _ => hf) look limit depth a _

end Moves

namespace Transcript

/-- The transcript that goes on after `t` as `u` does. -/
def after (t u : Transcript) : Transcript := ⟨u.latestFirst ++ t.latestFirst⟩

@[simp]
theorem toList_after (t u : Transcript) : (t.after u).toList = t.toList ++ u.toList :=
  List.reverse_append

theorem hom_after (t : Transcript) : Sink.Hom t.after := fun _ _ => rfl

end Transcript

end StackLang
