import StackLang.Proofs.Grammar
import StackLang.Proofs.Tree

/-!
# Declared names

What the names declared so far amount to at each point of a program.

Of all statements only two kinds declare a name for what follows, and neither by
what it encloses: a variable, and a function. So the names at a point are those at
the start, changed by the statements before the point one by one. The statements
before a point are an initial part of the pre-order that passes over bodies, and
`Names.after` does the changing. `names_of_reads` is this for the end of a block,
and `each_of_reads` for every point: each statement has itself been read with the
names that the statements before it have left. What a rule of the grammar demands
of the names can therefore be read off for any statement of a program, as
`allowsFunction_of_allows` does for a function.

## Main definitions

* `declaredIn`: The variables declared by some statements.
* `functionNamesIn`: The names of the functions declared by some statements.
* `Names.note`, `Names.after`: The names after a statement, and after several.
* `Each`: A property of every statement and the names before it.
* `Names.Allows`: A statement can be read with the names.
* `Function.own`: The parameters and variables of a function.
* `Names.AllowsFunction`: What the names demand of a function.

## Theorems

* `Names.after_of_none`, `Names.after_of_some`: The names after statements, field by
  field, outside of functions and in a body.
* `flat_of_reads`: In a body there are no functions, and all names but the local ones
  stay.
* `names_of_reads`: The names at the end of a block.
* `each_of_reads`: The names at every point of a block.
* `allowsFunction_of_allows`: A function that can be read meets the demands.
-/

namespace StackLang

/-- The variable that a statement declares. -/
def Stmt.declared? : Stmt → Option String
  | .declare x _ => some x
  | _ => none

/-- The variables declared by some statements, without those they enclose. -/
def declaredIn (ss : List Stmt) : List String := ss.filterMap Stmt.declared?

/-- The name of the function that a statement declares. -/
def Stmt.functionName? (s : Stmt) : Option String := s.function?.map fun f => f.name

/-- The names of the functions declared by some statements, without those they
    enclose. -/
def functionNamesIn (ss : List Stmt) : List String := ss.filterMap Stmt.functionName?

@[simp]
theorem declaredIn_nil : declaredIn [] = [] := rfl

@[simp]
theorem declaredIn_cons (s : Stmt) (ss : List Stmt) :
    declaredIn (s :: ss) = s.declared?.toList ++ declaredIn ss := by
  rw [declaredIn, List.filterMap_cons]
  cases s.declared? <;> rfl

@[simp]
theorem declaredIn_append (ss ss' : List Stmt) :
    declaredIn (ss ++ ss') = declaredIn ss ++ declaredIn ss' := List.filterMap_append

@[simp]
theorem functionNamesIn_nil : functionNamesIn [] = [] := rfl

@[simp]
theorem functionNamesIn_cons (s : Stmt) (ss : List Stmt) :
    functionNamesIn (s :: ss) = s.functionName?.toList ++ functionNamesIn ss := by
  rw [functionNamesIn, List.filterMap_cons]
  cases s.functionName? <;> rfl

@[simp]
theorem functionNamesIn_append (ss ss' : List Stmt) :
    functionNamesIn (ss ++ ss') = functionNamesIn ss ++ functionNamesIn ss' :=
  List.filterMap_append

theorem mem_declaredIn {x : String} {ss : List Stmt} :
    x ∈ declaredIn ss ↔ ∃ loc, Stmt.declare x loc ∈ ss := by
  rw [declaredIn, List.mem_filterMap]
  constructor
  · rintro ⟨s, hs, hx⟩
    cases s with
    | declare y loc => cases hx; exact ⟨loc, hs⟩
    | literal | operator | read | assign | ifThen | ifElse | loop | function | call | print =>
        cases hx
  · rintro ⟨loc, h⟩
    exact ⟨_, h, rfl⟩

theorem functionNamesIn_eq (ss : List Stmt) :
    functionNamesIn ss = (functionsIn ss).map fun f => f.name := by
  rw [functionNamesIn, functionsIn, List.map_filterMap]
  rfl

theorem mem_functionNamesIn {x : String} {ss : List Stmt} :
    x ∈ functionNamesIn ss ↔ ∃ f ∈ functionsIn ss, f.name = x := by
  rw [functionNamesIn_eq, List.mem_map]

namespace Names

/-- The names after a statement, whatever it encloses. -/
def note (n : Names) : Stmt → Names
  | .declare x _ => n.declare x
  | .function signature _ => n.declareFunction signature.name
  | .literal _ _ | .operator _ _ | .read _ _ | .assign _ _ | .ifThen _ _ | .ifElse _ _ _
  | .loop _ _ _ | .call _ _ | .print _ => n

/-- The names after some statements, whatever they enclose. -/
def after (n : Names) (ss : List Stmt) : Names := ss.foldl note n

@[simp]
theorem after_nil (n : Names) : n.after [] = n := rfl

@[simp]
theorem after_cons (n : Names) (s : Stmt) (ss : List Stmt) :
    n.after (s :: ss) = (n.note s).after ss := rfl

@[simp]
theorem after_append (n : Names) (ss ss' : List Stmt) :
    n.after (ss ++ ss') = (n.after ss).after ss' := List.foldl_append

/-- Entering and leaving a body at the top level is no change. -/
theorem leave_enter {n : Names} (h : n.scope = none) (function : String)
    (parameters : List String) : (n.enter function parameters).leave = n := by
  rw [enter, leave, ← h]

theorem note_of_none {n : Names} (h : n.scope = none) (s : Stmt) :
    n.note s =
      { n with
        vars := n.vars ++ s.declared?.toList
        functions := n.functions ++ s.functionName?.toList
        pending := n.pending ++ s.declared?.toList } := by
  rcases n with ⟨headers, vars, functions, pending, scope⟩
  cases h
  cases s with
  | declare x loc => simp [note, declare, Stmt.declared?, Stmt.functionName?, Stmt.function?]
  | function signature body =>
      simp [note, declareFunction, Stmt.declared?, Stmt.functionName?, Stmt.function?]
  | literal | operator | read | assign | ifThen | ifElse | loop | call | print =>
      simp [note, Stmt.declared?, Stmt.functionName?, Stmt.function?]

theorem note_of_some {n : Names} {f : FunctionScope} (h : n.scope = some f) (s : Stmt) :
    n.note s =
      { n with
        functions := n.functions ++ s.functionName?.toList
        scope := some { f with vars := f.vars ++ s.declared?.toList } } := by
  rcases n with ⟨headers, vars, functions, pending, scope⟩
  cases h
  cases s with
  | declare x loc => simp [note, declare, Stmt.declared?, Stmt.functionName?, Stmt.function?]
  | function signature body =>
      simp [note, declareFunction, Stmt.declared?, Stmt.functionName?, Stmt.function?]
  | literal | operator | read | assign | ifThen | ifElse | loop | call | print =>
      simp [note, Stmt.declared?, Stmt.functionName?, Stmt.function?]

/-- Outside of functions a statement declares a global variable or a function. -/
theorem after_of_none {n : Names} (h : n.scope = none) (ss : List Stmt) :
    n.after ss =
      { n with
        vars := n.vars ++ declaredIn ss
        functions := n.functions ++ functionNamesIn ss
        pending := n.pending ++ declaredIn ss } := by
  induction ss generalizing n with
  | nil => simp only [after_nil, declaredIn_nil, functionNamesIn_nil, List.append_nil]
  | cons s ss ih =>
      rw [after_cons, note_of_none h, ih (by exact h)]
      simp only [declaredIn_cons, functionNamesIn_cons, List.append_assoc]

/-- In a body a variable is local. -/
theorem after_of_some {n : Names} {f : FunctionScope} (h : n.scope = some f) (ss : List Stmt) :
    n.after ss =
      { n with
        functions := n.functions ++ functionNamesIn ss
        scope := some { f with vars := f.vars ++ declaredIn ss } } := by
  induction ss generalizing n f with
  | nil =>
      rw [after_nil, declaredIn_nil, functionNamesIn_nil, List.append_nil, List.append_nil, ← h]
  | cons s ss ih =>
      rw [after_cons, note_of_some h, ih rfl]
      simp only [declaredIn_cons, functionNamesIn_cons, List.append_assoc]

end Names

section Points

variable {n n' : Names} {ts rest : List Token} {ss : List Stmt}

theorem names_of_simple {s : Stmt} (h : Simple n ts s n' rest) : n' = n.note s := by
  cases h <;> rfl

theorem enclosed_of_simple {s : Stmt} (h : Simple n ts s n' rest) (bodies : Bool) :
    s.enclosed bodies = [] := by
  cases h <;> simp only [Stmt.enclosed]

theorem function?_of_simple {s : Stmt} (h : Simple n ts s n' rest) : s.function? = none := by
  cases h <;> rfl

theorem functionName?_of_simple {s : Stmt} (h : Simple n ts s n' rest) :
    s.functionName? = none := by
  rw [Stmt.functionName?, function?_of_simple h, Option.map_none]

/-- In a body a simple statement changes no names but the local ones. -/
theorem note_of_simple {s : Stmt} (h : Simple n ts s n' rest) (hscope : n.scope ≠ none) :
    n'.scope ≠ none ∧ n'.leave = n.leave := by
  rcases Option.ne_none_iff_exists'.1 hscope with ⟨f, hf⟩
  rw [names_of_simple h, Names.note_of_some hf, functionName?_of_simple h]
  exact ⟨nofun, by simp [Names.leave]⟩

/-- In a body there are no functions, and all names but the local ones stay. -/
theorem flat_of_reads (h : Reads n ts ss n' rest) (hscope : n.scope ≠ none) :
    functionsIn (preorder false ss) = [] ∧ n'.scope ≠ none ∧ n'.leave = n.leave := by
  induction h with
  | nil => exact ⟨rfl, hscope, rfl⟩
  | simple hs _ ih =>
      rcases note_of_simple hs hscope with ⟨hscope₁, hleave₁⟩
      rcases ih hscope₁ with ⟨hss, hscope', hleave⟩
      refine ⟨?_, hscope', hleave.trans hleave₁⟩
      rw [preorder_cons, enclosed_of_simple hs, functionsIn_cons, function?_of_simple hs]
      exact hss
  | ifThen ht _ he _ ihblock ihss =>
      rcases ihblock hscope with ⟨hblock, hscope₁, hleave₁⟩
      rcases ihss hscope₁ with ⟨hss, hscope', hleave⟩
      refine ⟨?_, hscope', hleave.trans hleave₁⟩
      simp only [preorder_cons, Stmt.enclosed, functionsIn_cons, functionsIn_append, hblock, hss]
      rfl
  | ifElse ht _ he _ he' _ ihblock ihother ihss =>
      rcases ihblock hscope with ⟨hblock, hscope₁, hleave₁⟩
      rcases ihother hscope₁ with ⟨hother, hscope₂, hleave₂⟩
      rcases ihss hscope₂ with ⟨hss, hscope', hleave⟩
      refine ⟨?_, hscope', hleave.trans (hleave₂.trans hleave₁)⟩
      simp only [preorder_cons, Stmt.enclosed, functionsIn_cons, functionsIn_append, hblock,
        hother, hss]
      rfl
  | loop ht _ he _ he' _ ihcondition ihbody ihss =>
      rcases ihcondition hscope with ⟨hcondition, hscope₁, hleave₁⟩
      rcases ihbody hscope₁ with ⟨hbody, hscope₂, hleave₂⟩
      rcases ihss hscope₂ with ⟨hss, hscope', hleave⟩
      refine ⟨?_, hscope', hleave.trans (hleave₂.trans hleave₁)⟩
      simp only [preorder_cons, Stmt.enclosed, functionsIn_cons, functionsIn_append, hcondition,
        hbody, hss]
      rfl
  | function hnone =>
      -- A function can only be read outside of functions.
      exact absurd hnone hscope

/-- The names at the end of a block. -/
theorem names_of_reads (h : Reads n ts ss n' rest) : n' = n.after (preorder false ss) := by
  induction h with
  | nil => rw [preorder_nil, Names.after_nil]
  | simple hs _ ih =>
      rw [ih, names_of_simple hs, preorder_cons, enclosed_of_simple hs, List.nil_append,
        Names.after_cons]
  | ifThen ht _ he _ ihblock ihss =>
      rw [ihss, ihblock, preorder_cons, Stmt.enclosed, Names.after_cons, Names.after_append,
        Names.note]
  | ifElse ht _ he _ he' _ ihblock ihother ihss =>
      rw [ihss, ihother, ihblock, preorder_cons, Stmt.enclosed, Names.after_cons,
        Names.after_append, Names.after_append, Names.note]
  | loop ht _ he _ he' _ ihcondition ihbody ihss =>
      rw [ihss, ihbody, ihcondition, preorder_cons, Stmt.enclosed, Names.after_cons,
        Names.after_append, Names.after_append, Names.note]
  | function hscope hbar hname hfree hparen hps hbody he hcount hbar' _ ihbody ihss =>
      -- Leaving the body forgets its variables, and nothing else has changed there.
      have hleave := (flat_of_reads hbody nofun).2.2
      rw [ihss, hleave, preorder_cons, Stmt.enclosed, Names.after_cons, Names.note,
        Names.leave_enter (by exact hscope)]
      rfl

end Points

/-- A property holds of every statement of a list, together with the names that the
    statements before it leave. -/
def Each (P : Names → Stmt → Prop) : Names → List Stmt → Prop
  | _, [] => True
  | n, s :: ss => P n s ∧ Each P (n.note s) ss

/-- The statement can be read with the names. -/
def Names.Allows (n : Names) (s : Stmt) : Prop := ∃ ts n' rest, Reads n ts [s] n' rest

section Each

variable {P : Names → Stmt → Prop} {n : Names}

theorem each_append {ss ss' : List Stmt} :
    Each P n (ss ++ ss') ↔ Each P n ss ∧ Each P (n.after ss) ss' := by
  induction ss generalizing n with
  | nil => exact ⟨fun h => ⟨trivial, h⟩, fun h => h.2⟩
  | cons s ss ih =>
      rw [List.cons_append, Each, Each, Names.after_cons, ih, and_assoc]

/-- What holds of each statement holds of one at a known place. -/
theorem Each.split {before after : List Stmt} {s : Stmt} (h : Each P n (before ++ s :: after)) :
    P (n.after before) s :=
  (each_append.1 h).2.1

theorem Each.of_mem {ss : List Stmt} {s : Stmt} (h : Each P n ss) (hs : s ∈ ss) :
    ∃ before after, ss = before ++ s :: after ∧ P (n.after before) s := by
  rcases List.append_of_mem hs with ⟨before, after, rfl⟩
  exact ⟨before, after, rfl, h.split⟩

end Each

theorem not_mem_of_isFreeLocal {n : Names} {locals : List String} {x : String}
    (h : n.isFreeLocal locals x) :
    x ∉ locals ∧ n.isGlobal x = false ∧ n.isFunction x = false := by
  simp only [Names.isFreeLocal, Bool.not_eq_true', Bool.or_eq_false_iff, and_assoc] at h
  refine ⟨fun hx => ?_, h.2⟩
  rw [List.contains_iff_mem.2 hx] at h
  cases h.1

theorem not_mem_of_isGlobal {n : Names} {x : String} (h : n.isGlobal x = false) :
    x ∉ n.vars ∧ x ∉ n.functions := by
  simpa only [Names.isGlobal, Bool.or_eq_false_iff, List.contains_eq_mem, decide_eq_false_iff_not]
    using h

theorem nodup_concat {xs : List String} {x : String} (h : xs.Nodup) (hx : x ∉ xs) :
    (xs ++ [x]).Nodup := by
  refine List.nodup_append.2 ⟨h, by simp, ?_⟩
  rintro y hy z hz rfl
  exact hx (List.mem_singleton.1 hz ▸ hy)

section Points

variable {n n' : Names} {ts rest : List Token} {ss : List Stmt}

/-- Each statement of a block has been read with the names that the statements before
    it have left. -/
theorem each_of_reads (h : Reads n ts ss n' rest) : Each Names.Allows n (preorder false ss) := by
  induction h with
  | nil => trivial
  | simple hs _ ih =>
      rw [preorder_cons, enclosed_of_simple hs, List.nil_append]
      refine ⟨⟨_, _, _, .single hs⟩, ?_⟩
      rw [← names_of_simple hs]
      exact ih
  | ifThen ht hblock he _ ihblock ihss =>
      -- What follows a block starts with the names at the end of it.
      rw [preorder_cons, Stmt.enclosed]
      refine ⟨⟨_, _, _, .ifThen ht hblock he .nil⟩, each_append.2 ⟨ihblock, ?_⟩⟩
      rw [names_of_reads hblock] at ihss
      exact ihss
  | ifElse ht hblock he hother he' _ ihblock ihother ihss =>
      rw [preorder_cons, Stmt.enclosed]
      refine ⟨⟨_, _, _, .ifElse ht hblock he hother he' .nil⟩,
        each_append.2 ⟨each_append.2 ⟨ihblock, ?_⟩, ?_⟩⟩
      · rw [names_of_reads hblock] at ihother
        exact ihother
      · rw [names_of_reads hother, names_of_reads hblock] at ihss
        rw [Names.after_append]
        exact ihss
  | loop ht hcondition he hbody he' _ ihcondition ihbody ihss =>
      rw [preorder_cons, Stmt.enclosed]
      refine ⟨⟨_, _, _, .loop ht hcondition he hbody he' .nil⟩,
        each_append.2 ⟨each_append.2 ⟨ihcondition, ?_⟩, ?_⟩⟩
      · rw [names_of_reads hcondition] at ihbody
        exact ihbody
      · rw [names_of_reads hbody, names_of_reads hcondition] at ihss
        rw [Names.after_append]
        exact ihss
  | function hscope hbar hname hfree hparen hps hbody he hcount hbar' hss _ ihss =>
      -- The body is passed over, so what follows starts with one function more.
      have hn := names_of_reads
        (.function hscope hbar hname hfree hparen hps hbody he hcount hbar' .nil)
      rw [preorder_cons, Stmt.enclosed]
      refine ⟨⟨_, _, _, .function hscope hbar hname hfree hparen hps hbody he hcount hbar' .nil⟩,
        ?_⟩
      rw [hn] at ihss
      exact ihss

/-- What the names demand of a statement that is no function. -/
def Names.Resolves (n : Names) : Stmt → Prop
  | .declare x _ => n.isFree x
  | .read x _ => n.isVariable x
  | .assign x _ => n.isVariable x
  | .call x _ => n.isVariable x = false ∧ n.isFunction x
  | .literal _ _ | .operator _ _ | .ifThen _ _ | .ifElse _ _ _ | .loop _ _ _ | .function _ _
  | .print _ => True

theorem resolves_of_allows {s : Stmt} (h : n.Allows s) : n.Resolves s := by
  rcases h with ⟨ts, n', rest, h⟩
  cases h with
  | simple hs _ =>
      cases hs with
      | integer | boolean | operator | print => trivial
      | assignAfter ht hvar ha => exact hvar
      | read ht hvar hnext => exact hvar
      | call ht hvar hfunction => exact ⟨hvar, hfunction⟩
      | declare ht hx hfree => exact hfree
      | assign ht hx hvar => exact hvar
  | ifThen | ifElse | loop | function => trivial

/-- The parameters are those seen before and others, all of them distinct, and the others
    are free. -/
theorem free_of_parameters {seen ps : List String} (h : Parameters n seen ts ps rest) :
    (seen.Nodup → ps.Nodup) ∧
      ∀ x ∈ ps, x ∈ seen ∨ (n.isGlobal x = false ∧ n.isFunction x = false) := by
  induction h with
  | close => exact ⟨id, fun x hx => .inl hx⟩
  | @value seen ps t x ts rest ht hx hfree _ ih =>
      rcases not_mem_of_isFreeLocal hfree with ⟨hseen, hglobal⟩
      refine ⟨fun hnodup => ih.1 (nodup_concat hnodup hseen), ?_⟩
      intro y hy
      rcases ih.2 y hy with hy | hy
      · rcases List.mem_append.1 hy with hy | hy
        · exact .inl hy
        · exact .inr (List.mem_singleton.1 hy ▸ hglobal)
      · exact .inr hy

/-- The variables of a body are distinct, also from the parameters, and free. -/
theorem free_of_each {f : FunctionScope} (h : Each Names.Allows n ss) (hscope : n.scope = some f)
    (hflat : functionsIn ss = []) :
    (f.locals.Nodup → (f.locals ++ declaredIn ss).Nodup) ∧
      ∀ x ∈ declaredIn ss, n.isGlobal x = false ∧ n.isFunction x = false := by
  -- With each variable of the body the scope grows, so both are general.
  induction ss generalizing n f with
  | nil => exact ⟨fun hnodup => by simpa using hnodup, fun x hx => absurd hx List.not_mem_nil⟩
  | cons s ss ih =>
      rcases h with ⟨hs, hss⟩
      rw [functionsIn_cons, List.append_eq_nil_iff] at hflat
      cases s with
      | declare x loc =>
          -- The name is free, and those that follow are free with it declared.
          have hfree : n.isFree x := resolves_of_allows hs
          rw [Names.isFree, hscope] at hfree
          rcases not_mem_of_isFreeLocal hfree with ⟨hlocal, hglobal⟩
          rw [Names.note_of_some hscope] at hss
          rcases ih hss rfl hflat.2 with ⟨hdistinct, hrest⟩
          rw [declaredIn_cons]
          constructor
          · intro hnodup
            have hnext := hdistinct (by
              rw [FunctionScope.locals, ← List.append_assoc]
              exact nodup_concat hnodup hlocal)
            simpa only [FunctionScope.locals, List.append_assoc] using hnext
          · intro y hy
            rcases List.mem_append.1 hy with hy | hy
            · exact List.mem_singleton.1 hy ▸ hglobal
            · have hyfree := hrest y hy
              simp only [Stmt.functionName?, Stmt.function?, Option.map_none, Option.toList_none,
                List.append_nil] at hyfree
              exact hyfree
      | function signature body => cases hflat.1
      | literal | operator | read | assign | ifThen | ifElse | loop | call | print =>
          exact ih hss hscope hflat.2

/-- The parameters and variables of a function. -/
def Function.own (f : Function) : List String := f.parameters ++ f.locals

/-- What the names demand of a function: it stands outside of bodies, its name is free,
    its parameters and variables are distinct and free, and each statement of its body
    can be read in turn. -/
structure Names.AllowsFunction (n : Names) (f : Function) : Prop where
  scope : n.scope = none
  free : n.isGlobal f.name = false
  locals : f.locals = declaredIn (preorder false f.body)
  distinct : f.own.Nodup
  own : ∀ x ∈ f.own, (n.declareFunction f.name).isGlobal x = false ∧
    (n.declareFunction f.name).isFunction x = false
  flat : functionsIn (preorder false f.body) = []
  body : Each Names.Allows ((n.declareFunction f.name).enter f.name f.parameters)
    (preorder false f.body)

theorem allowsFunction_of_allows {f : Function} (h : n.Allows (.function f.toSignature f.body)) :
    n.AllowsFunction f := by
  rcases f with ⟨signature, body⟩
  rcases h with ⟨ts, n', rest, h⟩
  cases h with
  | simple hs => cases hs
  | @function _ n₁ _ bar name paren e count bar' ts ts₁ ts₂ _ ps _ _ arity hscope hbar hname hfree
      hparen hps hbody he hcount hbar' hss =>
      have hflat := (flat_of_reads hbody nofun).1
      have heach := each_of_reads hbody
      have hlocals : n₁.locals = declaredIn (preorder false body) := by
        rw [names_of_reads hbody, Names.after_of_some rfl]
        rfl
      rcases free_of_parameters hps with ⟨hdistinct, hfreeps⟩
      rcases free_of_each heach rfl hflat with ⟨hdistinct', hfreelocals⟩
      refine ⟨hscope, hfree, hlocals, ?_, ?_, hflat, heach⟩
      · rw [Function.own, hlocals]
        have hnodup := hdistinct' (by simpa [FunctionScope.locals] using hdistinct List.nodup_nil)
        simpa only [FunctionScope.locals, List.append_nil] using hnodup
      · intro x hx
        rw [Function.own, hlocals] at hx
        rcases List.mem_append.1 hx with hx | hx
        · exact (hfreeps x hx).resolve_left List.not_mem_nil
        · exact hfreelocals x hx

/-- Outside of functions all variables and functions have different names. -/
theorem nodup_of_each (h : Each Names.Allows n ss) (hscope : n.scope = none)
    (hn : (n.vars ++ n.functions).Nodup) :
    ((n.after ss).vars ++ (n.after ss).functions).Nodup := by
  induction ss generalizing n with
  | nil => exact hn
  | cons s ss ih =>
      rcases h with ⟨hs, hss⟩
      rw [Names.after_cons]
      have hnote := Names.note_of_none hscope s
      refine ih hss (by rw [hnote]; exact hscope) ?_
      cases s with
      | declare x loc =>
          have hfree : n.isFree x := resolves_of_allows hs
          rw [Names.isFree, hscope, Bool.not_eq_true'] at hfree
          rcases not_mem_of_isGlobal hfree with ⟨hvars, hfunctions⟩
          rw [Names.note, Names.declare, hscope]
          grind
      | function signature body =>
          have hfree := (allowsFunction_of_allows (f := ⟨signature, body⟩) hs).free
          rcases not_mem_of_isGlobal hfree with ⟨hvars, hfunctions⟩
          rw [Names.note, Names.declareFunction]
          grind
      | literal | operator | read | assign | ifThen | ifElse | loop | call | print => exact hn

end Points

end StackLang
