import StackLang.Proofs.Bindings
import StackLang.Proofs.Headers

/-!
# Scopes of resolved programs

In a program that keeps to the rules of names the scopes can always be set up, and
hold what they should.

A name can be bound unless it is bound already, and a variable can be allocated
unless the name is that of a function. So the global scope of a program comes about
if the functions of the top level have different names and no global variable is
called like one of them, and the scope of a call if the parameters have different
names: nothing else is in it yet. The rules of names ensure both. After that a
variable that is there can be read, assigned to and declared again, whatever it
holds.

## Theorems

* `Scope.exists_allocate`, `Scope.exists_assign`, `Scope.exists_value`: What can be done
  with a variable.
* `exists_declareAll`, `exists_allocateAll`: Names can be bound one by one.
* `exists_callScope`: The scope of a call, with the parameters and variables.
* `Program.Resolved.exists_globalScope`: The global scope of a resolved program.
-/

namespace StackLang

namespace Scope

variable {s : Scope} {x : String}

theorem exists_declare (h : s.find? x = none) (b : Binding) : ∃ t, s.declare x b = .ok t := by
  rw [declare, h]
  exact ⟨_, rfl⟩

theorem exists_allocate (h : ∀ f, s.function x ≠ .ok f) : ∃ t, s.allocate x = .ok t := by
  unfold allocate
  cases hx : s.find? x with
  | none => exact exists_declare hx _
  | some b =>
      cases b with
      | cell v => exact ⟨_, rfl⟩
      | function f => exact absurd (by rw [Scope.function, hx]) (h f)

theorem exists_assign (h : s.Holds x) (v : Value) : ∃ t, s.assign x v = .ok t := by
  rcases h with ⟨w, hw⟩
  rw [assign, hw]
  exact ⟨_, rfl⟩

theorem exists_value (h : s.Holds x) : ∃ v, s.value x = .ok v := by
  rcases h with ⟨w, hw⟩
  rw [value, hw]
  exact ⟨_, rfl⟩

theorem Holds.function_ne (h : s.Holds x) (f : Function) : s.function x ≠ .ok f := by
  rcases h with ⟨w, hw⟩
  simp only [function, hw, ne_eq, reduceCtorEq, not_false_eq_true]

end Scope

section BindAll

variable {ε α : Type} {s : Scope}

/-- Different names that are all free can be bound one by one. -/
theorem exists_declareAll {bind : Scope → α → Except ε Scope} {key : α → String}
    {binding : α → Binding}
    (hbind : ∀ s a t, bind s a = .ok t ↔ s.declare (key a) (binding a) = .ok t) {as : List α}
    (hnodup : (as.map key).Nodup) (hfree : ∀ a ∈ as, s.find? (key a) = none) :
    ∃ t, as.foldlM bind s = .ok t := by
  induction as generalizing s with
  | nil => exact ⟨s, rfl⟩
  | cons a as ih =>
      rcases Scope.exists_declare (hfree a List.mem_cons_self) (binding a) with ⟨t, ht⟩
      rw [List.foldlM_cons, (hbind s a t).2 ht]
      rw [List.map_cons, List.nodup_cons] at hnodup
      refine ih hnodup.2 fun b hb => ?_
      -- The name just bound is none of those that follow.
      have hne : key b ≠ key a := fun heq => hnodup.1 (heq ▸ List.mem_map_of_mem hb)
      rw [Scope.find?_declare ht, if_neg hne]
      exact hfree b (List.mem_cons_of_mem a hb)

/-- Names that are no functions can be allocated one by one. -/
theorem exists_allocateAll {bind : Scope → String → Except ε Scope}
    (hbind : ∀ s x t, bind s x = .ok t ↔ s.allocate x = .ok t) {xs : List String}
    (hxs : ∀ x ∈ xs, ∀ f, s.function x ≠ .ok f) : ∃ t, xs.foldlM bind s = .ok t := by
  induction xs generalizing s with
  | nil => exact ⟨s, rfl⟩
  | cons x xs ih =>
      rcases Scope.exists_allocate (hxs x List.mem_cons_self) with ⟨t, ht⟩
      rw [List.foldlM_cons, (hbind s x t).2 ht]
      refine ih fun y hy => ?_
      rw [(Scope.grows_allocate ht).function]
      exact hxs y (List.mem_cons_of_mem x hy)

end BindAll

/-- The parameters are bound to the arguments, and nothing else is bound. -/
theorem exists_bindParameters {ps : List String} {arguments : List Value}
    (hlength : arguments.length = ps.length) (hnodup : ps.Nodup) :
    ∃ s, (ps.zip arguments).foldlM (fun s entry => s.declare entry.1 (.cell entry.2))
        Scope.empty = .ok s ∧
      (∀ x f, s.function x ≠ .ok f) ∧ ∀ x ∈ ps, s.Holds x := by
  have hkeys : (ps.zip arguments).map Prod.fst = ps := List.map_fst_zip (Nat.le_of_eq hlength.symm)
  rcases exists_declareAll (s := Scope.empty) (fun _ _ _ => Iff.rfl) (by rw [hkeys]; exact hnodup)
    (fun _ _ => Scope.find?_empty _) with ⟨s, hs⟩
  have hfind := find?_of_declareAll (fun _ _ _ => Iff.rfl) hs
  simp only [Scope.find?_empty, Option.none_or] at hfind
  refine ⟨s, hs, ?_, ?_⟩
  · intro x f
    rw [Scope.function, hfind]
    cases (ps.zip arguments).find? fun entry => entry.1 = x with
    | none => simp
    | some entry => simp
  · intro x hx
    rw [← hkeys] at hx
    rcases List.mem_map.1 hx with ⟨entry, hentry, rfl⟩
    cases hfound : (ps.zip arguments).find? fun other => other.1 = entry.1 with
    | none => exact absurd (decide_eq_true rfl) (List.find?_eq_none.1 hfound entry hentry)
    | some other => exact ⟨other.2, by rw [hfind, hfound]; rfl⟩

/-- A call with as many arguments as parameters has a scope, which holds the parameters and
    variables. -/
theorem exists_callScope {f : Function} {arguments : List Value}
    (hlength : arguments.length = f.parameters.length) (hnodup : f.parameters.Nodup) :
    ∃ s, callScope f arguments = .ok s ∧ ∀ x ∈ f.own, s.Holds x := by
  rcases exists_bindParameters hlength hnodup with ⟨s, hs, hfunctions, hparameters⟩
  rcases exists_allocateAll (fun _ _ _ => Iff.rfl) fun x (_ : x ∈ f.locals) => hfunctions x with
    ⟨t, ht⟩
  -- Allocating a variable keeps what is there, be it a parameter of the same name.
  rcases grows_of_allocateAll (fun _ _ _ => Iff.rfl) ht with ⟨hgrows, hlocals⟩
  refine ⟨t, ?_, ?_⟩
  · rw [callScope, hs]
    exact ht
  · intro x hx
    rcases List.mem_append.1 hx with hx | hx
    · exact hgrows.holds x (hparameters x hx)
    · exact hlocals x hx

namespace Program

variable {p : Program}

theorem sublist_preorder (ss : List Stmt) : ss.Sublist (preorder false ss) := by
  induction ss with
  | nil => exact List.nil_sublist _
  | cons s ss ih =>
      rw [preorder_cons]
      exact (ih.trans (List.sublist_append_right _ _)).cons_cons s

theorem mem_preorder_of_mem_functions {f : Function} (hf : f ∈ p.functions) :
    f ∈ functionsIn (preorder false p.statements) :=
  mem_functionsIn.2 (mem_preorder_iff.2 (.inl (mem_functionsIn.1 hf)))

/-- The functions at the top level are among all that are declared outside of bodies. -/
theorem functions_sublist (p : Program) :
    (p.functions.map fun f => f.name).Sublist (functionNamesIn (preorder false p.statements)) := by
  rw [functionNamesIn_eq]
  exact ((sublist_preorder p.statements).filterMap Stmt.function?).map _

/-- The scope of a call of a function at the top level, with its parameters and
    variables. -/
theorem Resolved.exists_callScope (h : p.Resolved) {f : Function} (hf : f ∈ p.functions)
    {arguments : List Value} (hlength : arguments.length = f.parameters.length) :
    ∃ s, callScope f arguments = .ok s ∧ ∀ x ∈ f.own, s.Holds x := by
  rcases h.exists_allowsFunction (mem_preorder_of_mem_functions hf) with ⟨before, hallows⟩
  exact StackLang.exists_callScope hlength (List.nodup_append.1 hallows.distinct).1

/-- The global scope of a resolved program, with its functions and variables. -/
theorem Resolved.exists_globalScope (h : p.Resolved) : ∃ s, globalScope p = .ok s := by
  have hnodup := List.nodup_append.1 h.nodup
  have hfunctions : (p.functions.map fun f => f.name).Nodup :=
    hnodup.2.1.sublist p.functions_sublist
  have hbind : ∃ s, p.functions.foldlM (fun s f => (s.declare f.name (.function f)).mapError
      fun e => (⟨e.fault, f.loc⟩ : RuntimeError)) Scope.empty = .ok s :=
    exists_declareAll (fun _ _ _ => mapError_eq_ok) hfunctions fun _ _ => Scope.find?_empty _
  rcases hbind with ⟨s, hs⟩
  -- A global variable is called like no function, so it can be allocated.
  have hglobals : ∀ x ∈ p.globals, ∀ f, s.function x ≠ .ok f := by
    intro x hx f hf
    rw [function_of_bindFunctions hs] at hf
    rcases mem_of_look hf with ⟨hmem, hname⟩
    have hdeclared := p.functions_sublist.subset (List.mem_map.2 ⟨f, hmem, hname⟩)
    exact hnodup.2.2 x hx x hdeclared rfl
  rw [globalScope, hs]
  exact exists_allocateAll (fun _ _ _ => mapError_eq_ok) hglobals

end Program

end StackLang
