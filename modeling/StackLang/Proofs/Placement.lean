import StackLang.Proofs.Agreement
import StackLang.Proofs.LoopFree
import StackLang.Proofs.Refinement
import StackLang.Proofs.Scoping

/-!
# Where functions are declared

It does not matter to a run where in a program its functions are declared, or in which order.

A declaration plays two parts. It is a statement that a run comes to and goes over, and it is
an entry of the global scope, which is filled in the order of the declarations before the run
starts. If the functions have different names, none of the entries clashes with another one, so
in any order the scope answers look-ups alike, and whether a global variable clashes with a
function does not depend on the order either: `Program.Rearranged.globalScope`. So the runs of
two such programs start with machines that are alike, and what follows from that is known.

## Main definitions

* `Program.Rearranged`: Programs that differ in the places of their functions.

## Theorems

* `find?_of_perm`: What is found under a name does not depend on the order.
* `Program.Rearranged.globalScope`: Bindings of rearranged programs.
* `alike_loaded`: Runs of rearranged programs start with alike machines.
* `runReport_of_rearranged`: Runs of rearranged programs.
-/

namespace StackLang

/-- The programs have the same global variables, the same statements apart from the functions
    declared at the top level, and the same functions there, at any places and in any order.
    The functions have different names. -/
structure Program.Rearranged (p q : Program) : Prop where
  globals : p.globals = q.globals
  statements : withoutFunctions p.statements = withoutFunctions q.statements
  functions : p.functions.Perm q.functions
  nodup : (p.functions.map fun f => f.name).Nodup

/-- What is found under a name does not depend on the order, if names differ. -/
theorem find?_of_perm {α : Type} {key : α → String} {as bs : List α} (h : as.Perm bs)
    (hnodup : (as.map key).Nodup) (x : String) :
    (as.find? fun a => key a = x) = bs.find? fun a => key a = x := by
  induction h with
  | nil => rfl
  | cons a _ ih =>
      rw [List.map_cons, List.nodup_cons] at hnodup
      rw [List.find?_cons, List.find?_cons, ih hnodup.2]
  | swap a b as =>
      have hne : key b ≠ key a := fun heq => by simp [heq] at hnodup
      rw [List.find?_cons, List.find?_cons, List.find?_cons, List.find?_cons]
      by_cases ha : key a = x
      · have hb : key b ≠ x := fun hb => hne (hb.trans ha.symm)
        simp only [ha, hb, decide_true, decide_false]
      · simp only [ha, decide_false]
  | trans h₁ _ ih₁ ih₂ => exact (ih₁ hnodup).trans (ih₂ ((h₁.map key).nodup_iff.1 hnodup))

namespace Program.Rearranged

variable {p q : Program}

theorem symm (h : p.Rearranged q) : q.Rearranged p :=
  ⟨h.globals.symm, h.statements.symm, h.functions.symm,
    (h.functions.map _).nodup_iff.1 h.nodup⟩

/-- The bindings at the start of a run fail in the same way, or agree. -/
theorem globalScope (h : p.Rearranged q) :
    Scope.SameChange (StackLang.globalScope p) (StackLang.globalScope q) := by
  have hp : ∃ s, p.functions.foldlM (fun s f => (s.declare f.name (.function f)).mapError
      fun e => (⟨e.fault, f.loc⟩ : RuntimeError)) Scope.empty = .ok s :=
    exists_declareAll (fun _ _ _ => mapError_eq_ok) h.nodup fun _ _ => Scope.find?_empty _
  have hq : ∃ s, q.functions.foldlM (fun s f => (s.declare f.name (.function f)).mapError
      fun e => (⟨e.fault, f.loc⟩ : RuntimeError)) Scope.empty = .ok s :=
    exists_declareAll (fun _ _ _ => mapError_eq_ok) h.symm.nodup fun _ _ => Scope.find?_empty _
  rcases hp with ⟨s, hs⟩
  rcases hq with ⟨t, ht⟩
  have hagrees : s.Agrees t := by
    intro x
    rw [find?_of_declareAll (fun _ _ _ => mapError_eq_ok) hs,
      find?_of_declareAll (fun _ _ _ => mapError_eq_ok) ht, find?_of_perm h.functions h.nodup]
  rw [StackLang.globalScope, StackLang.globalScope, hs, ht, h.globals]
  exact Scope.uniform_foldlM (fun x => (Scope.uniform_allocate x).mapError _) q.globals s t hagrees

end Program.Rearranged

variable {σ : Type} [Sink σ]

section Runs

variable {p q : Program} {limit : Nat} {calls : CallStack} {sink : σ} {initial : List Integer}

omit [Sink σ] in
/-- At the start of a run the machines are alike. -/
theorem alike_loaded (h : p.Rearranged q) {s t : Scope} (hst : s.Agrees t) :
    ((⟨p, limit, calls, sink⟩ : Machine σ).loaded s initial).Alike
      ((⟨q, limit, calls, sink⟩ : Machine σ).loaded t initial) := by
  have hcursors : [Cursor.sequence p.statements].map Cursor.bare =
      [Cursor.sequence q.statements].map Cursor.bare :=
    congrArg (fun ss => [Cursor.mk ss .sequence]) h.statements
  exact ⟨rfl, rfl, ⟨rfl, hst, hcursors⟩, .nil⟩

/-- What a run of one program leaves, a run of the other does. -/
theorem exists_runReport_of_rearranged (h : p.Rearranged q) {fuel : Nat} {r : Report σ}
    (hr : (⟨p, limit, calls, sink⟩ : Machine σ).runReport fuel initial = some r) :
    ∃ fuel, (⟨q, limit, calls, sink⟩ : Machine σ).runReport fuel initial = some r := by
  have hsame := h.globalScope
  cases hs : globalScope p with
  | error e =>
      rw [hs] at hsame
      generalize ht : globalScope q = scope at hsame
      cases hsame
      -- Neither of the programs is run, and nothing has changed.
      refine ⟨0, ?_⟩
      simp only [Machine.runReport, Machine.run, Machine.load, hs] at hr
      simp only [Machine.runReport, Machine.run, Machine.load, ht]
      exact hr
  | ok s =>
      rw [hs] at hsame
      generalize ht : globalScope q = scope at hsame
      cases hsame with
      | ok hst =>
          rw [Machine.runReport_eq initial hs] at hr
          rcases Option.map_eq_some_iff.1 hr with ⟨⟨result, last⟩, hlast, rfl⟩
          rcases (alike_loaded h hst).runFor hlast with ⟨k, last', hlast', halike⟩
          refine ⟨k, ?_⟩
          rw [Machine.runReport_eq initial ht, hlast', Option.map_some]
          simp only [Machine.report, halike.globalStack, halike.calls.depth_eq, halike.sink]

/-- What a run of one program has printed at some point, a run of the other has printed at
    some point. -/
theorem exists_sink_of_rearranged (h : p.Rearranged q) {start m : Machine σ}
    (hload : (⟨p, limit, calls, sink⟩ : Machine σ).load initial = .ok start)
    (hreach : start.Reaches m) :
    ∃ start' m', (⟨q, limit, calls, sink⟩ : Machine σ).load initial = .ok start' ∧
      start'.Reaches m' ∧ m'.sink = m.sink := by
  rcases Machine.load_eq_ok hload with ⟨s, hs, rfl⟩
  have hsame := h.globalScope
  have hs' : globalScope p = .ok s := hs
  rw [hs'] at hsame
  generalize ht : globalScope q = scope at hsame
  cases hsame with
  | ok hst =>
      rcases (alike_loaded h hst).reaches hreach with ⟨m', hreach', halike⟩
      exact ⟨_, m', Machine.load_eq ht initial, hreach', halike.sink.symm⟩

end Runs

/-- It does not matter to a run where in a program its functions are declared. Let two programs
    have the same global variables, the same statements apart from the functions declared at the
    top level, and the same functions there, in any order and at any places, with different
    names. From machines that differ in the program only, a run of one ends with a result, a
    global stack, a number of active calls and a sink exactly if a run of the other does. And
    whether it ends or not, what the sink is at some point of the one run, it is at some point
    of the other. -/
theorem runReport_of_rearranged {p q : Program} (h : p.Rearranged q) (limit : Nat)
    (calls : CallStack) (sink : σ) (initial : List Integer) :
    (∀ r : Report σ,
      (∃ fuel, (⟨p, limit, calls, sink⟩ : Machine σ).runReport fuel initial = some r) ↔
        ∃ fuel, (⟨q, limit, calls, sink⟩ : Machine σ).runReport fuel initial = some r) ∧
    ∀ s : σ,
      (∃ start m, (⟨p, limit, calls, sink⟩ : Machine σ).load initial = .ok start ∧
        start.Reaches m ∧ m.sink = s) ↔
      ∃ start m, (⟨q, limit, calls, sink⟩ : Machine σ).load initial = .ok start ∧
        start.Reaches m ∧ m.sink = s := by
  refine ⟨fun r => ⟨?_, ?_⟩, fun s => ⟨?_, ?_⟩⟩
  · rintro ⟨fuel, hr⟩
    exact exists_runReport_of_rearranged h hr
  · rintro ⟨fuel, hr⟩
    exact exists_runReport_of_rearranged h.symm hr
  · rintro ⟨start, m, hload, hreach, rfl⟩
    exact exists_sink_of_rearranged h hload hreach
  · rintro ⟨start, m, hload, hreach, rfl⟩
    exact exists_sink_of_rearranged h.symm hload hreach

/-- The two functions that call each other, in the other order and after the call. -/
def parityLast : Program :=
  ⟨[.call "EVEN" ⟨3, 1⟩, parity "ODD" "EVEN" false 2, parity "EVEN" "ODD" true 1], []⟩

/-- The call comes before the declarations, and comes to the same. -/
theorem runReport_parityLast :
    parityProgram.Rearranged parityLast ∧
      ∃ fuel, (Machine.idle parityLast 4 Transcript.empty).runReport fuel [3] =
        some ⟨.ok [.bool false], [.bool false], 0, .empty⟩ := by
  have h : parityProgram.Rearranged parityLast :=
    ⟨rfl, rfl, .swap _ _ _, by decide⟩
  exact ⟨h, ((runReport_of_rearranged h 4 _ Transcript.empty [3]).1 _).1 ⟨60, rfl⟩⟩

end StackLang
