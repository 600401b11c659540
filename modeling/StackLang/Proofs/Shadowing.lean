import StackLang.Proofs.Headers

/-!
# Shadowing

Whether a function can have a parameter or variable with the name of a global
variable.

A body sees its own parameters and variables only, so such a name would hide the
global one from a reader of the program. A name that is declared in a function is
checked against the global variables there are at that point, and a global
variable against all other global names. Nothing compares a global variable with
the functions before it. So there is shadowing exactly when a global variable is
declared after a function that has its name among its own:
`noShadowing_iff_not_declaresLate`. The other order never gets through, and neither
does a variable declared in a branch or a loop, which is as global as any.

## Main definitions

* `Program.NoShadowing`: No function has a name of its own that is global too.
* `Program.DeclaresLate`: A global variable comes after a function with its name.

## Theorems

* `Program.Resolved.mem_globals_iff`: A name of a function is global only if it is
  declared as such after the function.
* `noShadowing_iff_not_declaresLate`: There is no shadowing unless a global variable
  comes late.
-/

namespace StackLang

namespace Program

/-- No function, wherever it is declared, has a parameter or variable with the name of a
    global variable. -/
def NoShadowing (p : Program) : Prop :=
  ∀ f ∈ functionsIn (preorder true p.statements), ∀ x ∈ f.own, x ∉ p.globals

/-- A global variable is declared after a function that has a parameter or variable of the
    same name. -/
def DeclaresLate (p : Program) : Prop :=
  ∃ before f after, p.FunctionAt before f after ∧ ∃ x ∈ f.own, x ∈ declaredIn after

namespace Resolved

variable {p : Program} {before after : List Stmt} {f : Function} {x : String}

/-- A name of a function is not that of a global variable declared before it. -/
theorem not_mem_before (h : p.Resolved) (hf : p.FunctionAt before f after) (hx : x ∈ f.own) :
    x ∉ declaredIn before := by
  -- The name has been free with the global names at the point of the function.
  have hglobal := ((h.allowsFunction hf).own x hx).1
  rw [names_after] at hglobal
  exact (not_mem_of_isGlobal hglobal).1

/-- A name of a function is global only if it is declared as such after the function. -/
theorem mem_globals_iff (h : p.Resolved) (hf : p.FunctionAt before f after) (hx : x ∈ f.own) :
    x ∈ p.globals ↔ x ∈ declaredIn after := by
  have hbefore := h.not_mem_before hf hx
  rw [h.globals, hf, declaredIn_append, List.mem_append, declaredIn_cons]
  exact ⟨fun hmem => hmem.resolve_left hbefore, .inr⟩

theorem noShadowing_iff (h : p.Resolved) : p.NoShadowing ↔ ¬ p.DeclaresLate := by
  constructor
  · rintro hno ⟨before, f, after, hf, x, hx, hlate⟩
    refine hno f (h.mem_functionsIn_preorder.2 (mem_functionsIn.2 ?_)) x hx
      ((h.mem_globals_iff hf hx).2 hlate)
    rw [hf]
    exact List.mem_append_right before List.mem_cons_self
  · intro hlate f hf x hx hglobal
    -- No function lies in a body, so this one has a place outside of bodies.
    rcases exists_functionAt (h.mem_functionsIn_preorder.1 hf) with ⟨before, after, hat⟩
    exact hlate ⟨before, f, after, hat, x, hx, (h.mem_globals_iff hat hx).1 hglobal⟩

end Resolved

end Program

/-- The program of a source text has no shadowing unless a global variable is declared after
    a function with that name among its own; earlier global variables are kept apart. -/
theorem noShadowing_iff_not_declaresLate {source : String} {p : Program}
    (h : compile source = .ok p) :
    (∀ before f after, p.FunctionAt before f after → ∀ x ∈ f.own, x ∉ declaredIn before) ∧
      (p.NoShadowing ↔ ¬ p.DeclaresLate) := by
  have hresolved := resolved_of_compile h
  exact ⟨fun _ _ _ hf _ hx => hresolved.not_mem_before hf hx, hresolved.noShadowing_iff⟩

/-- A function with a parameter and a variable, after a global variable. -/
def earlyGlobal : Program :=
  ⟨[.declare "g" ⟨1, 1⟩,
    .function ⟨"F", ["x"], ["y"], .one, ⟨1, 12⟩⟩ [.declare "y" ⟨1, 28⟩, .read "x" ⟨1, 39⟩]], ["g"]⟩

theorem noShadowing_earlyGlobal :
    compile "VARIABLE g | F ( VALUE x ) VARIABLE y x RETURN 1 |" = .ok earlyGlobal ∧
      earlyGlobal.NoShadowing := by
  have h : compile "VARIABLE g | F ( VALUE x ) VARIABLE y x RETURN 1 |" = .ok earlyGlobal := by
    with_unfolding_all rfl
  refine ⟨h, (noShadowing_iff_not_declaresLate h).2.2 ?_⟩
  rintro ⟨before, f, after, hf, x, hx, hlate⟩
  -- Nothing follows the only function.
  have hafter : after = [] := by
    rcases before with _ | ⟨a, _ | ⟨b, before⟩⟩
    · cases hf
    · exact (List.cons.inj (List.cons.inj hf).2).2.symm
    · cases before <;> cases hf
  rw [hafter] at hlate
  cases hlate

theorem exists_shadowing : ∃ source p, compile source = .ok p ∧ ¬ p.NoShadowing := by
  refine ⟨"| F ( VALUE x ) x RETURN 1 | VARIABLE x", ⟨[.function ⟨"F", ["x"], [], .one, ⟨1, 1⟩⟩
    [.read "x" ⟨1, 17⟩], .declare "x" ⟨1, 30⟩], ["x"]⟩, ?_, ?_⟩
  · with_unfolding_all rfl
  · intro h
    exact h ⟨⟨"F", ["x"], [], .one, ⟨1, 1⟩⟩, [.read "x" ⟨1, 17⟩]⟩ (mem_functionsIn.2 (by simp)) "x"
      (by simp [Function.own]) (by simp)

end StackLang
