import StackLang.Proofs.Headers

/-!
# Well-formed programs

What the names of a compiled program can be relied on for, said of the program
alone.

The rules of names are rules for reading: they compare a name with those declared
so far and with the headers of the text. A program is what is left when the
reading is over, and a later pass over it would like to know which names are
declared where without repeating the reading. `Program.WellFormed` is that
knowledge. All declared names outside of bodies are different, and so are those of
a function; the lists of variables that a program and its functions carry are those
of the declarations in them; a variable is used only after its declaration; and a
call is that of a declared function.

"After" is the order of the statements in the text, not that of a run. A variable
that is declared in a branch counts as declared for all that follows the branch.

## Main definitions

* `Stmt.variable?`: The variable that a statement reads or assigns to.
* `UsesDeclared`: Variables are used after their declaration only.
* `Function.WellFormed`: The names of a function.
* `Program.WellFormed`: The names of a program.

## Theorems

* `usesDeclared_of_each`: Statements that can be read in turn use declared variables.
* `Program.Resolved.functionNames_eq`: All functions are found outside of bodies.
* `Program.Resolved.wellFormed_function`: The functions of a resolved program.
* `wellFormed_of_compile`: The program of a source text is well formed.
-/

namespace StackLang

/-- The variable that a statement reads or assigns to. -/
def Stmt.variable? : Stmt → Option String
  | .read x _ => some x
  | .assign x _ => some x
  | _ => none

/-- Each variable that one of the statements reads or assigns to is a given one, or is
    declared by a statement before that one. -/
def UsesDeclared (vars : List String) (ss : List Stmt) : Prop :=
  ∀ before s after, ss = before ++ s :: after →
    ∀ x ∈ s.variable?, x ∈ vars ∨ x ∈ declaredIn before

/-- The names of a function are in order, among functions of the given names. -/
structure Function.WellFormed (functions : List String) (f : Function) : Prop where
  /-- The variables are those declared in the body, in source order. -/
  locals : f.locals = declaredIn (preorder true f.body)
  /-- Parameters and variables are pairwise different. -/
  distinct : f.own.Nodup
  /-- None of them has the name of a function. -/
  apart : ∀ x ∈ f.own, x ∉ functions
  /-- A variable is used after its declaration, a parameter everywhere. -/
  uses : UsesDeclared f.parameters (preorder true f.body)
  /-- No function is declared in the body. -/
  flat : functionsIn (preorder true f.body) = []

/-- The names of a program are in order. -/
structure Program.WellFormed (p : Program) : Prop where
  /-- Global variables and functions, wherever they are declared, have pairwise different
      names. -/
  distinct : (p.globals ++ functionNamesIn (preorder true p.statements)).Nodup
  /-- The global variables are those declared outside of bodies, in source order. -/
  globals : p.globals = declaredIn (preorder false p.statements)
  /-- Outside of bodies a variable is used after its declaration. -/
  uses : UsesDeclared [] (preorder false p.statements)
  /-- A call, be it in a body, is that of a declared function. -/
  calls : ∀ x loc, Stmt.call x loc ∈ preorder true p.statements →
    x ∈ functionNamesIn (preorder true p.statements)
  functions : ∀ f ∈ functionsIn (preorder true p.statements),
    f.WellFormed (functionNamesIn (preorder true p.statements))

theorem isVariable_of_resolves {n : Names} {s : Stmt} {x : String} (h : n.Resolves s)
    (hx : x ∈ s.variable?) : n.isVariable x := by
  cases s with
  | read y loc => cases hx; exact h
  | assign y loc => cases hx; exact h
  | literal | operator | declare | ifThen | ifElse | loop | function | call | print => cases hx

/-- Statements that can be read in turn use declared variables, if the names that are
    visible at a point are the given ones and those declared before. -/
theorem usesDeclared_of_each {n : Names} {ss : List Stmt} {vars : List String}
    (h : Each Names.Allows n ss)
    (hvars : ∀ before x, (n.after before).isVariable x → x ∈ vars ∨ x ∈ declaredIn before) :
    UsesDeclared vars ss := by
  rintro before s after rfl x hx
  exact hvars before x (isVariable_of_resolves (resolves_of_allows h.split) hx)

theorem Names.AllowsFunction.usesDeclared {n : Names} {f : Function} (h : n.AllowsFunction f) :
    UsesDeclared f.parameters (preorder false f.body) := by
  refine usesDeclared_of_each h.body fun before x hx => List.mem_append.1 ?_
  rw [Names.after_of_some rfl, Names.isVariable, List.contains_iff_mem] at hx
  exact hx

namespace Program.Resolved

variable {p : Program}

/-- All functions are found outside of bodies. -/
theorem functionNames_eq (h : p.Resolved) :
    functionNamesIn (preorder true p.statements) =
      functionNamesIn (preorder false p.statements) := by
  rw [functionNamesIn_eq, functionNamesIn_eq, h.functionsIn_eq]

theorem usesDeclared (h : p.Resolved) : UsesDeclared [] (preorder false p.statements) := by
  refine usesDeclared_of_each h.each fun before x hx => .inr ?_
  rw [names_after, Names.isVariable, List.contains_iff_mem] at hx
  exact hx

/-- A function that has been read has names in order. What is visible as a function at
    that point are all functions of the text, so its own names differ from all of them. -/
theorem wellFormed_function (h : p.Resolved) {f : Function}
    (hf : f ∈ functionsIn (preorder false p.statements)) :
    f.WellFormed (functionNamesIn (preorder false p.statements)) := by
  rcases h.exists_allowsFunction hf with ⟨before, hallows⟩
  have hbody := preorder_true_eq f.body hallows.flat
  constructor
  · rw [hbody]
    exact hallows.locals
  · exact hallows.distinct
  · intro x hx hfunction
    have hfree := (hallows.own x hx).2
    rw [names_after] at hfree
    simp only [Names.isFunction, Names.declareFunction, Bool.or_eq_false_iff] at hfree
    rw [List.contains_iff_mem.2 (show x ∈ p.names.headers from hfunction)] at hfree
    cases hfree.1
  · rw [hbody]
    exact hallows.usesDeclared
  · rw [hbody]
    exact hallows.flat

end Program.Resolved

/-- The program of a source text is well formed. -/
theorem wellFormed_of_compile {source : String} {p : Program} (h : compile source = .ok p) :
    p.WellFormed := by
  have hp := resolved_of_compile h
  constructor
  · rw [hp.functionNames_eq]
    exact hp.nodup
  · exact hp.globals
  · exact hp.usesDeclared
  · intro x loc hx
    rw [hp.functionNames_eq]
    exact hp.mem_of_call hx
  · intro f hf
    rw [hp.functionsIn_eq] at hf
    rw [hp.functionNames_eq]
    exact hp.wellFormed_function hf

/-- A function that calls a later one, which is declared in a branch, and a call of the first
    right after the bar that closes it. -/
def calledBeforeBranch : Program :=
  ⟨[.declare "g" ⟨1, 1⟩,
    .function ⟨"F", ["x"], ["y"], .one, ⟨1, 12⟩⟩
      [.declare "y" ⟨1, 28⟩, .read "x" ⟨1, 39⟩, .call "G" ⟨1, 41⟩],
    .call "F" ⟨1, 54⟩,
    .ifThen [.function ⟨"G", [], [], .one, ⟨1, 59⟩⟩ [.literal (.int 1) ⟨1, 67⟩]] ⟨1, 56⟩], ["g"]⟩

theorem wellFormed_calledBeforeBranch :
    compile "VARIABLE g | F ( VALUE x ) VARIABLE y x G RETURN 1 | F IF | G ( ) 1 RETURN 1 | THEN" =
        .ok calledBeforeBranch ∧
      calledBeforeBranch.WellFormed := by
  have h : compile
      "VARIABLE g | F ( VALUE x ) VARIABLE y x G RETURN 1 | F IF | G ( ) 1 RETURN 1 | THEN" =
        .ok calledBeforeBranch := by
    with_unfolding_all rfl
  exact ⟨h, wellFormed_of_compile h⟩

end StackLang
