import StackLang.Proofs.Bindings

/-!
# Evaluation by recursion

A second account of what programs do, without cursors and without frames. A block
is evaluated by evaluating its statements in turn; a branch evaluates one of its
blocks; a loop evaluates its condition, and as long as that leaves true, its body
and itself again; a call evaluates the body of the function on a store of its own
and hands the topmost values back. Nesting is the nesting of the evaluation
itself.

A program need not end, so an evaluation is given fuel, which bounds how deep it
recurses, and is `none` when the fuel does not suffice. The functions that can be
called and the limit on calls are parameters, since they are the same throughout.

An evaluation that fails says where the failure happened: the error with its
location, how many calls were active then, and the store as this activation had
it at that moment. A caller keeps its own scope and stack in that case, without
the arguments of the call, and only takes over the sink.

## Main definitions

* `Ending`: How the evaluation of statements ends.
* `Ending.andThen`: Going on unless an evaluation has failed.
* `Ending.handBack`: The end of a call, from the end of its body.
* `evalLoop`, `evalStmt`, `evalBlock`: The evaluation of a loop, of a statement and
  of a block.
* `Report`: What is left of a run.
* `Program.evaluate`: The evaluation of a program.
-/

namespace StackLang

variable {σ : Type}

/-- How the evaluation of statements ends. A failure comes with the number of calls
    that were active when it happened. -/
inductive Ending (σ : Type) where
  | done (a : Store σ)
  | failed (e : RuntimeError) (depth : Nat) (a : Store σ)

namespace Ending

/-- Go on with the next evaluation, unless this one has failed or run out of
    fuel. -/
def andThen (x : Option (Ending σ)) (next : Store σ → Option (Ending σ)) : Option (Ending σ) :=
  match x with
  | none => none
  | some (.done a) => next a
  | some (.failed e depth a) => some (.failed e depth a)

/-- The ending of an action that is blamed on `loc` if it fails. -/
def of (loc : Location) (depth : Nat) : EStateM.Result Fault (Store σ) Unit → Ending σ
  | .ok _ a => .done a
  | .error fault a => .failed ⟨fault, loc⟩ depth a

/-- The end of a call, from the end of its body: the caller gets the topmost values,
    as many as the function hands back, and everything printed. -/
def handBack (function : Function) (site : Location) (depth : Nat) (caller : Store σ) :
    Ending σ → Ending σ
  | .failed e inner b => .failed e inner { caller with sink := b.sink }
  | .done b =>
      match b.stack.popMany? function.arity.count with
      | some (results, _) => .done ⟨caller.scope, caller.stack.extend results, b.sink⟩
      | none =>
          .failed ⟨.stackUnderflow function.arity.count b.stack.size, site⟩ depth
            { caller with sink := b.sink }

end Ending

/-- The evaluation of a loop in at most so many rounds, given that of blocks. -/
def evalLoop (block : List Stmt → Store σ → Option (Ending σ)) (depth : Nat) (loop : Loop) :
    Nat → Store σ → Option (Ending σ)
  | 0, _ => none
  | rounds + 1, a =>
      Ending.andThen (block loop.condition a) fun b =>
        match b.popBool with
        | .ok true c => Ending.andThen (block loop.body c) (evalLoop block depth loop rounds)
        | .ok false c => some (.done c)
        | .error fault c => some (.failed ⟨fault, loop.loc⟩ depth c)

/-- The evaluation of a statement, given that of blocks at any number of active
    calls. -/
def evalStmt [Sink σ] (look : String → Except ScopeError Function) (limit : Nat)
    (block : Nat → List Stmt → Store σ → Option (Ending σ)) (rounds depth : Nat) (s : Stmt)
    (a : Store σ) : Option (Ending σ) :=
  match s with
  | .ifThen yes loc =>
      match a.popBool with
      | .ok true b => block depth yes b
      | .ok false b => some (.done b)
      | .error fault b => some (.failed ⟨fault, loc⟩ depth b)
  | .ifElse yes no loc =>
      match a.popBool with
      | .ok true b => block depth yes b
      | .ok false b => block depth no b
      | .error fault b => some (.failed ⟨fault, loc⟩ depth b)
  | .loop condition body loc => evalLoop (block depth) depth ⟨condition, body, loc⟩ rounds a
  | .call name site =>
      match Store.openCall look limit depth name a with
      | .ok (function, scope) b =>
          (block (depth + 1) function.body ⟨scope, .empty, b.sink⟩).map
            (Ending.handBack function site depth b)
      | .error fault b => some (.failed ⟨fault, site⟩ depth b)
  | s => some (Ending.of s.loc depth (Store.perform s a))

/-- The evaluation of a block with so much fuel, while so many calls are active. -/
def evalBlock [Sink σ] (look : String → Except ScopeError Function) (limit : Nat) :
    Nat → Nat → List Stmt → Store σ → Option (Ending σ)
  | 0, _, _, _ => none
  | _ + 1, _, [], a => some (.done a)
  | fuel + 1, depth, s :: rest, a =>
      Ending.andThen (evalStmt look limit (evalBlock look limit fuel) fuel depth s a)
        (evalBlock look limit fuel depth rest)

/-- What is left of a run: its result, the global stack from the bottom up, the
    number of calls still active, and the sink. -/
structure Report (σ : Type) where
  result : Except RuntimeError (List Value)
  stack : List Value
  depth : Nat
  sink : σ

/-- The report of an ending of the whole program. -/
def Ending.report : Ending σ → Report σ
  | .done a => ⟨.ok a.stack.toList, a.stack.toList, 0, a.sink⟩
  | .failed e depth a => ⟨.error e, a.stack.toList, depth, a.sink⟩

/-- The evaluation of a program whose functions and variables are bound in the given
    scope, from an initial stack from the bottom up. -/
def Program.evaluate [Sink σ] (p : Program) (limit fuel : Nat) (scope : Scope)
    (initial : List Integer) (sink : σ) : Option (Report σ) :=
  (evalBlock p.look limit fuel 0 p.statements
    ⟨scope, .ofList (initial.map .int), sink⟩).map Ending.report

end StackLang
