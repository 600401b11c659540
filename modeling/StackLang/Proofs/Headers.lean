import StackLang.Proofs.Declared
import StackLang.Proofs.Derivation

/-!
# Headers and functions

Calls are resolved against the headers of the whole text, which are found by their
looks: a bar, a name and an opening parenthesis in a row. A program may contain
bars that open nothing, since a function ends with a bar too. The point of this
module is that in a text that is a program no such bar can be mistaken for a
header. After a closing bar a statement may start with a name, but an opening
parenthesis after it can be part of no statement, so the rest could not be read:
`Stuck`. So every header is the header of a function of the program, and a name
that is called is declared somewhere.

With this the tokens have served their purpose. What the rules of names say about
a program that a source text stands for is collected in `Program.Resolved`, which
speaks of the program alone.

## Main definitions

* `HasHeader`: The header of a function stands in the tokens.
* `Stuck`: The tokens cannot be read to the end.
* `Program.Resolved`: Each statement can be read with the names declared before it.

## Theorems

* `mem_headersOf_iff`: The headers that are found beforehand stand in the tokens.
* `stuck_of_reads`: Reading does not get past a parenthesis.
* `headersOf_of_reads`: The headers are those of the functions.
* `resolved_of_compile`: The program of a source text is resolved.
* `Program.Resolved.allowsFunction`: What a function of a program has met.
* `Program.Resolved.functionsIn_eq`: No function lies in the body of another.
* `Program.Resolved.uses`, `Program.Resolved.uses_body`: The names that statements use.
* `Program.Resolved.mem_of_call`: A name that is called is declared.
-/

namespace StackLang

/-- The tokens start with an opening parenthesis, or with a name and one. -/
inductive Stuck : List Token → Prop
  | paren {t : Token} {ts : List Token} (ht : t.kind = .openParen) : Stuck (t :: ts)
  | name {t u : Token} {ts : List Token} (ht : t.kind = .identifier) (hu : u.kind = .openParen) :
      Stuck (t :: u :: ts)

theorem stuck_of_simple {n n' : Names} {ts rest : List Token} {s : Stmt}
    (h : Simple n ts s n' rest) (hts : Stuck ts) : Stuck rest := by
  cases hts with
  | paren hparen => cases h <;> grind
  | name hname hparen =>
      cases h with
      | read | call => exact .paren hparen
      | integer | boolean | operator | print | assignAfter | declare | assign => grind

/-- What is stuck stays so, however much is read. -/
theorem stuck_of_reads {n n' : Names} {ts rest : List Token} {ss : List Stmt}
    (h : Reads n ts ss n' rest) (hts : Stuck ts) : Stuck rest := by
  induction h with
  | nil => exact hts
  | simple hs _ ih => exact ih (stuck_of_simple hs hts)
  | ifThen ht => cases hts <;> grind
  | ifElse ht => cases hts <;> grind
  | loop ht => cases hts <;> grind
  | function hscope hbar => cases hts <;> grind

theorem not_stuck_keyword {t : Token} {ts : List Token} {k : Keyword} (ht : t.kind = .keyword k) :
    ¬ Stuck (t :: ts) := by
  intro h
  cases h <;> grind

theorem headersOf_cons {t : Token} (ht : t.kind ≠ .bar) (ts : List Token) :
    headersOf (t :: ts) = headersOf ts := by
  match ts with
  | [] => rfl
  | [a] => rfl
  | a :: b :: us => rw [headersOf, if_neg fun h => ht h.1]

theorem headersOf_keyword {t : Token} {k : Keyword} (ht : t.kind = .keyword k) {ts : List Token} :
    headersOf (t :: ts) = headersOf ts :=
  headersOf_cons (by simp [ht]) ts

/-- A bar makes a header only if what follows it would be stuck. -/
theorem headersOf_bar {t : Token} {ts : List Token} (hts : ¬ Stuck ts) :
    headersOf (t :: ts) = headersOf ts := by
  match ts with
  | [] => rfl
  | [a] => rfl
  | a :: b :: us => rw [headersOf, if_neg fun h => hts (.name h.2.1 h.2.2)]

theorem headersOf_of_simple {n n' : Names} {ts rest : List Token} {s : Stmt}
    (h : Simple n ts s n' rest) : headersOf ts = headersOf rest := by
  cases h with
  | integer ht | boolean ht | operator ht | print ht | read ht | call ht =>
      rw [headersOf_cons (by simp [ht])]
  | assignAfter ht _ hx | declare ht hx | assign ht hx =>
      rw [headersOf_cons (by simp [ht]), headersOf_cons (by simp [hx])]

theorem headersOf_of_parameters {n : Names} {seen ps : List String} {ts rest : List Token}
    (h : Parameters n seen ts ps rest) : headersOf ts = headersOf rest := by
  induction h with
  | close ht => rw [headersOf_cons (by simp [ht])]
  | value ht hx _ _ ih =>
      rw [headersOf_cons (by simp [ht]), headersOf_cons (by simp [hx]), ih]

theorem kind_of_arity? {t : Token} {arity : Arity} (h : t.arity? = some arity) :
    ∃ i, t.kind = .integer i := by
  unfold Token.arity? at h
  split at h
  next i hi => exact ⟨i, hi⟩
  next => cases h

/-- The headers are those of the functions, in order, and those that come later. -/
theorem headersOf_of_reads {n n' : Names} {ts rest : List Token} {ss : List Stmt}
    (h : Reads n ts ss n' rest) (hrest : ¬ Stuck rest) :
    headersOf ts = functionNamesIn (preorder false ss) ++ headersOf rest := by
  induction h with
  | nil => rfl
  | simple hs _ ih =>
      rw [headersOf_of_simple hs, ih hrest, preorder_cons, functionNamesIn_cons,
        functionName?_of_simple hs, enclosed_of_simple hs]
      rfl
  | ifThen ht _ he _ ihblock ihss =>
      rw [headersOf_keyword ht, ihblock (not_stuck_keyword he),
        headersOf_keyword he, ihss hrest]
      simp only [preorder_cons, Stmt.enclosed, functionNamesIn_cons, functionNamesIn_append,
        List.append_assoc]
      rfl
  | ifElse ht _ he _ he' _ ihblock ihother ihss =>
      rw [headersOf_keyword ht, ihblock (not_stuck_keyword he),
        headersOf_keyword he, ihother (not_stuck_keyword he'), headersOf_keyword he', ihss hrest]
      simp only [preorder_cons, Stmt.enclosed, functionNamesIn_cons, functionNamesIn_append,
        List.append_assoc]
      rfl
  | loop ht _ he _ he' _ ihcondition ihbody ihss =>
      rw [headersOf_keyword ht, ihcondition (not_stuck_keyword he),
        headersOf_keyword he, ihbody (not_stuck_keyword he'), headersOf_keyword he', ihss hrest]
      simp only [preorder_cons, Stmt.enclosed, functionNamesIn_cons, functionNamesIn_append,
        List.append_assoc]
      rfl
  | function hscope hbar hname hfree hparen hps hbody he hcount hbar' hss ihbody ihss =>
      have hflat := (flat_of_reads hbody (Option.some_ne_none _)).1
      rcases kind_of_arity? hcount with ⟨i, hi⟩
      rw [headersOf, if_pos ⟨hbar, hname, hparen⟩, headersOf_cons (by simp [hname]),
        headersOf_cons (by simp [hparen]), headersOf_of_parameters hps,
        ihbody (not_stuck_keyword he), functionNamesIn_eq, hflat, List.map_nil, List.nil_append,
        headersOf_keyword he, headersOf_cons (by simp [hi]),
        -- The closing bar is no header, or the text could not be read to its end.
        headersOf_bar fun hts => hrest (stuck_of_reads hss hts), ihss hrest, preorder_cons,
        functionNamesIn_cons, Stmt.enclosed]
      rfl

/-- The headers of a whole text are those of its functions. -/
theorem headersOf_of_reads_nil {n n' : Names} {ts : List Token} {ss : List Stmt}
    (h : Reads n ts ss n' []) : headersOf ts = functionNamesIn (preorder false ss) := by
  rw [headersOf_of_reads h nofun, show headersOf [] = [] from rfl, List.append_nil]

/-- The names at the start of a program: its functions can be called from the start. -/
def Program.names (p : Program) : Names :=
  .ofHeaders (functionNamesIn (preorder false p.statements))

/-- What the rules of names say about a program: its global variables are those declared
    outside of bodies, and each statement there can be read with the names declared before
    it. -/
structure Program.Resolved (p : Program) : Prop where
  globals : p.globals = declaredIn (preorder false p.statements)
  each : Each Names.Allows p.names (preorder false p.statements)

theorem resolved_of_compile {source : String} {p : Program} (h : compile source = .ok p) :
    p.Resolved := by
  rcases reads_of_compile h with ⟨ts, finish, n', _, hreads, hglobals⟩
  -- The headers that the text has been read with are those of the functions in it.
  rw [headersOf_of_reads_nil hreads] at hreads
  refine ⟨?_, each_of_reads hreads⟩
  rw [hglobals, names_of_reads hreads, Names.after_of_none rfl]
  rfl

/-- The names that a statement itself uses are among the given ones. -/
def Stmt.Uses (vars functions : List String) : Stmt → Prop
  | .declare x _ => x ∈ vars
  | .read x _ => x ∈ vars
  | .assign x _ => x ∈ vars
  | .call x _ => x ∈ functions
  | .literal _ _ | .operator _ _ | .ifThen _ _ | .ifElse _ _ _ | .loop _ _ _ | .function _ _
  | .print _ => True

namespace Program

variable {p : Program}

/-- A function is declared between some statements, outside of bodies. -/
def FunctionAt (p : Program) (before : List Stmt) (f : Function) (after : List Stmt) : Prop :=
  preorder false p.statements = before ++ .function f.toSignature f.body :: after

/-- The names after some statements from the start. -/
theorem names_after (p : Program) (ss : List Stmt) :
    p.names.after ss = ⟨p.names.headers, declaredIn ss, functionNamesIn ss, declaredIn ss, none⟩ :=
  Names.after_of_none rfl ss

theorem exists_functionAt {f : Function} (hf : f ∈ functionsIn (preorder false p.statements)) :
    ∃ before after, p.FunctionAt before f after :=
  List.append_of_mem (mem_functionsIn.1 hf)

theorem mem_of_isFunction {n : Names} {fs : List String} {x : String} (hheaders : n.headers ⊆ fs)
    (hfunctions : n.functions ⊆ fs) (hx : n.isFunction x) : x ∈ fs := by
  rw [Names.isFunction, Bool.or_eq_true, List.contains_iff_mem, List.contains_iff_mem] at hx
  rcases hx with hx | hx
  · exact hheaders hx
  · exact hfunctions hx

namespace Resolved

theorem allowsFunction (h : p.Resolved) {before after : List Stmt} {f : Function}
    (hf : p.FunctionAt before f after) : (p.names.after before).AllowsFunction f := by
  have heach := h.each
  rw [hf] at heach
  exact allowsFunction_of_allows heach.split

theorem exists_allowsFunction (h : p.Resolved) {f : Function}
    (hf : f ∈ functionsIn (preorder false p.statements)) :
    ∃ before, (p.names.after before).AllowsFunction f := by
  rcases exists_functionAt hf with ⟨before, after, hat⟩
  exact ⟨before, h.allowsFunction hat⟩

/-- No function lies in the body of another, so entering bodies finds no more. -/
theorem functionsIn_eq (h : p.Resolved) :
    functionsIn (preorder true p.statements) = functionsIn (preorder false p.statements) := by
  refine functionsIn_preorder_true p.statements fun f hf => ?_
  rcases h.exists_allowsFunction hf with ⟨before, hallows⟩
  exact hallows.flat

theorem mem_functionsIn_preorder (h : p.Resolved) {f : Function} :
    f ∈ functionsIn (preorder true p.statements) ↔
      f ∈ functionsIn (preorder false p.statements) := by
  rw [h.functionsIn_eq]

/-- The variables and functions of a program have different names. -/
theorem nodup (h : p.Resolved) :
    (p.globals ++ functionNamesIn (preorder false p.statements)).Nodup := by
  have hnodup := nodup_of_each h.each rfl List.nodup_nil
  rw [names_after, ← h.globals] at hnodup
  exact hnodup

/-- Outside of bodies a statement uses global variables and functions of the program. -/
theorem uses (h : p.Resolved) {s : Stmt} (hs : s ∈ preorder false p.statements) :
    s.Uses p.globals (functionNamesIn (preorder false p.statements)) := by
  rcases h.each.of_mem hs with ⟨before, after, heq, hallows⟩
  have hresolves := resolves_of_allows hallows
  -- A variable that is visible has been declared by the statements before.
  have hvar : ∀ x, (p.names.after before).isVariable x → x ∈ p.globals := by
    intro x hx
    rw [names_after, Names.isVariable, List.contains_iff_mem] at hx
    rw [h.globals, heq, declaredIn_append]
    exact List.mem_append_left _ hx
  cases s with
  | declare x loc => rw [h.globals]; exact mem_declaredIn.2 ⟨loc, hs⟩
  | read x loc => exact hvar x hresolves
  | assign x loc => exact hvar x hresolves
  | call x loc =>
      change x ∈ functionNamesIn (preorder false p.statements)
      refine mem_of_isFunction ?_ ?_ hresolves.2
      · rw [names_after]
        exact List.Subset.refl _
      · rw [names_after, heq, functionNamesIn_append]
        exact List.subset_append_left _ _
  | literal | operator | ifThen | ifElse | loop | function | print => trivial

/-- In a body a statement uses parameters and variables of the function, and functions of
    the program. -/
theorem uses_body (h : p.Resolved) {f : Function}
    (hf : f ∈ functionsIn (preorder false p.statements)) {s : Stmt}
    (hs : s ∈ preorder false f.body) :
    s.Uses f.own (functionNamesIn (preorder false p.statements)) := by
  rcases exists_functionAt hf with ⟨outer, outer', houter⟩
  have hfunction := h.allowsFunction houter
  rcases hfunction.body.of_mem hs with ⟨before, after, heq, hallows⟩
  have hresolves := resolves_of_allows hallows
  rw [Names.after_of_some rfl] at hresolves
  have hvar : ∀ x, x ∈ f.parameters ++ declaredIn before → x ∈ f.own := by
    intro x hx
    rw [Function.own, hfunction.locals, heq, declaredIn_append, ← List.append_assoc]
    exact List.mem_append_left _ hx
  cases s with
  | declare x loc =>
      rw [Function.own, hfunction.locals]
      exact List.mem_append_right _ (mem_declaredIn.2 ⟨loc, hs⟩)
  | read x loc => exact hvar x (List.contains_iff_mem.1 hresolves)
  | assign x loc => exact hvar x (List.contains_iff_mem.1 hresolves)
  | call x loc =>
      change x ∈ functionNamesIn (preorder false p.statements)
      refine mem_of_isFunction ?_ ?_ hresolves.2
      · rw [names_after]
        exact List.Subset.refl _
      · -- The functions so far: those before the function, itself, and none in its body.
        have hnone : functionNamesIn before = [] := by
          have hflat := hfunction.flat
          rw [heq, functionsIn_append, List.append_eq_nil_iff] at hflat
          rw [functionNamesIn_eq, hflat.1, List.map_nil]
        rw [names_after, houter, functionNamesIn_append, functionNamesIn_cons, hnone]
        intro y hy
        simp only [Names.enter, Names.declareFunction, List.append_nil, List.mem_append,
          List.mem_singleton] at hy
        rcases hy with hy | hy
        · exact List.mem_append_left _ hy
        · refine List.mem_append_right _ (List.mem_append_left _ ?_)
          rw [hy]
          exact List.mem_singleton.2 rfl
  | literal | operator | ifThen | ifElse | loop | function | print => trivial

/-- A name that is called, be it in a body, is that of a function of the program. -/
theorem mem_of_call (h : p.Resolved) {x : String} {loc : Location}
    (hx : Stmt.call x loc ∈ preorder true p.statements) :
    x ∈ functionNamesIn (preorder false p.statements) := by
  rcases (mem_preorder_true_iff _).1 hx with hx | ⟨signature, body, hf, hx⟩
  · exact h.uses hx
  · have hf := mem_functionsIn (f := ⟨signature, body⟩).2 hf
    rcases h.exists_allowsFunction hf with ⟨before, hallows⟩
    rw [preorder_true_eq body hallows.flat] at hx
    exact h.uses_body hf hx

end Resolved

end Program

end StackLang
