import StackLang.Proofs.Headers

/-!
# Functions at the top level

Where a function can be declared, and what it takes to be called.

Only functions that are declared directly at the top level are bound when a
program runs, so one that is declared elsewhere can be called and not be there.
In the body of a function no other can be declared. In a branch or a loop one can,
and whether that has happened shows in the tokens: a function starts with a bar,
and a bar between `IF` and its `THEN`, or between `BEGIN` and its `REPEAT`, is what
the program then has and otherwise has not. `barsOutside` looks for such a bar by
counting, and `nested_eq_nil_iff_barsOutside` says that it finds one exactly when
some function is not at the top level. If there is none, every name that is called
is that of a function at the top level.

The counting works since a block is balanced: reading one from any depth on leaves
the same depth, `barsOutside_of_reads`.

## Main definitions

* `Token.depthAfter`: The number of open branches and loops after a token.
* `Token.Plain`: A token that does not count.
* `barsOutside`: No bar stands in a branch or a loop.
* `nestedIn`: The statements of a block that do not stand at the top level.

## Theorems

* `barsOutside_of_simple`, `barsOutside_of_parameters`: Tokens that neither nest nor are
  bars.
* `barsOutside_of_reads`: The bars of a block are outside if its functions are.
* `Program.Resolved.exists_function_of_call`: A call finds its function at the top level.
* `nested_eq_nil_iff_barsOutside`: All functions are at the top level exactly when all bars
  are outside of branches and loops.
-/

namespace StackLang

/-- The number of open branches and loops after a token, given that before it. -/
def Token.depthAfter (t : Token) (depth : Nat) : Nat :=
  match t.kind with
  | .keyword .IF => depth + 1
  | .keyword .BEGIN => depth + 1
  | .keyword .THEN => depth - 1
  | .keyword .REPEAT => depth - 1
  | _ => depth

/-- A token that neither is a bar nor opens or closes a branch or a loop. -/
def Token.Plain (t : Token) : Prop :=
  t.kind ≠ .bar ∧ ∀ depth, t.depthAfter depth = depth

/-- No bar stands in a branch or a loop, where so many of them are open at the start. -/
def barsOutside : Nat → List Token → Bool
  | _, [] => true
  | depth, t :: ts => (t.kind ≠ .bar ∨ depth = 0) && barsOutside (t.depthAfter depth) ts

/-- The statements of a block that do not stand at the top level, where the block is in so
    many branches and loops. -/
def nestedIn : Nat → List Stmt → List Stmt
  | 0, ss => ss.flatMap fun s => s.enclosed true
  | _ + 1, ss => preorder true ss

theorem functionsIn_nestedIn_cons (depth : Nat) (s : Stmt) (ss : List Stmt) :
    functionsIn (nestedIn depth (s :: ss)) = [] ↔
      (depth = 0 ∨ s.function? = none) ∧ functionsIn (s.enclosed true) = [] ∧
        functionsIn (nestedIn depth ss) = [] := by
  cases depth with
  | zero =>
      simp only [nestedIn, List.flatMap_cons, functionsIn_append, List.append_eq_nil_iff, true_or,
        true_and]
  | succ depth =>
      simp only [nestedIn, preorder_cons, functionsIn_cons, functionsIn_append,
        List.append_eq_nil_iff, Option.toList_eq_nil_iff, Nat.succ_ne_zero, false_or]

theorem functionsIn_nestedIn {ss : List Stmt} (h : functionsIn (preorder true ss) = [])
    (depth : Nat) : functionsIn (nestedIn depth ss) = [] := by
  cases depth with
  | succ depth => exact h
  | zero =>
      refine List.eq_nil_iff_forall_not_mem.2 fun f hf => ?_
      rcases List.mem_flatMap.1 (mem_functionsIn.1 hf) with ⟨s, hs, hfs⟩
      have hmem := mem_functionsIn.2 (mem_preorder_iff.2 (.inr ⟨s, hs, hfs⟩))
      rw [h] at hmem
      cases hmem

section Bars

variable {t : Token} {ts rest : List Token} {k : Keyword} {n n' : Names}

/-- A plain token does not matter. -/
theorem barsOutside_cons (ht : t.Plain) (depth : Nat) :
    barsOutside depth (t :: ts) = barsOutside depth ts := by
  simp only [barsOutside, ht.1, ht.2, ne_eq, not_false_eq_true, true_or, decide_true,
    Bool.true_and]

theorem barsOutside_keyword (ht : t.kind = .keyword k) (depth : Nat) :
    barsOutside depth (t :: ts) = barsOutside (t.depthAfter depth) ts := by
  simp only [barsOutside, ht, ne_eq, reduceCtorEq, not_false_eq_true, true_or, decide_true,
    Bool.true_and]

theorem barsOutside_bar (ht : t.kind = .bar) (depth : Nat) :
    barsOutside depth (t :: ts) ↔ depth = 0 ∧ barsOutside depth ts := by
  simp only [barsOutside, Token.depthAfter, ht, ne_eq, not_true_eq_false, false_or,
    Bool.and_eq_true, decide_eq_true_eq]

theorem barsOutside_of_simple {s : Stmt} (h : Simple n ts s n' rest) (depth : Nat) :
    barsOutside depth ts = barsOutside depth rest := by
  cases h with
  | integer ht | boolean ht | operator ht | print ht | read ht | call ht =>
      exact barsOutside_cons (by simp [Token.Plain, Token.depthAfter, ht]) depth
  | assignAfter ht _ hx | declare ht hx | assign ht hx =>
      rw [barsOutside_cons (by simp [Token.Plain, Token.depthAfter, ht]),
        barsOutside_cons (by simp [Token.Plain, Token.depthAfter, hx])]

theorem barsOutside_of_parameters {seen ps : List String} (h : Parameters n seen ts ps rest)
    (depth : Nat) : barsOutside depth ts = barsOutside depth rest := by
  induction h with
  | close ht =>
      exact barsOutside_cons (by simp [Token.Plain, Token.depthAfter, ht]) depth
  | value ht hx _ _ ih =>
      rw [barsOutside_cons (by simp [Token.Plain, Token.depthAfter, ht]),
        barsOutside_cons (by simp [Token.Plain, Token.depthAfter, hx]), ih]

/-- Reading a block, from any depth on, the bars are outside of branches and loops if the
    functions are. -/
theorem barsOutside_of_reads {ss : List Stmt} (h : Reads n ts ss n' rest) (depth : Nat) :
    barsOutside depth ts ↔ functionsIn (nestedIn depth ss) = [] ∧ barsOutside depth rest := by
  -- Every rule hands the depth on to the blocks it encloses, so it is not fixed.
  induction h generalizing depth with
  | nil => cases depth <;> simp only [nestedIn, List.flatMap_nil, preorder_nil, functionsIn_nil,
      true_and]
  | simple hs _ ih =>
      rw [barsOutside_of_simple hs, ih, functionsIn_nestedIn_cons, function?_of_simple hs,
        enclosed_of_simple hs]
      simp only [or_true, functionsIn_nil, true_and]
  | ifThen ht _ he _ ihblock ihss =>
      rw [barsOutside_keyword ht, Token.depthAfter, ht, ihblock, barsOutside_keyword he,
        Token.depthAfter, he, ihss, functionsIn_nestedIn_cons]
      simp only [Stmt.function?, Stmt.enclosed, or_true, true_and, nestedIn, and_assoc,
        Nat.add_sub_cancel]
  | ifElse ht _ he _ he' _ ihblock ihother ihss =>
      rw [barsOutside_keyword ht, Token.depthAfter, ht, ihblock, barsOutside_keyword he,
        Token.depthAfter, he, ihother, barsOutside_keyword he', Token.depthAfter, he', ihss,
        functionsIn_nestedIn_cons]
      simp only [Stmt.function?, Stmt.enclosed, or_true, true_and, nestedIn, and_assoc,
        Nat.add_sub_cancel, functionsIn_append, List.append_eq_nil_iff]
  | loop ht _ he _ he' _ ihcondition ihbody ihss =>
      rw [barsOutside_keyword ht, Token.depthAfter, ht, ihcondition, barsOutside_keyword he,
        Token.depthAfter, he, ihbody, barsOutside_keyword he', Token.depthAfter, he', ihss,
        functionsIn_nestedIn_cons]
      simp only [Stmt.function?, Stmt.enclosed, or_true, true_and, nestedIn, and_assoc,
        Nat.add_sub_cancel, functionsIn_append, List.append_eq_nil_iff]
  | @function _ _ _ _ _ _ _ _ _ _ _ _ _ _ body _ _ hscope hbar hname hfree hparen hps hbody he
      hcount hbar' hss ihbody ihss =>
      -- The body holds no function, so only the bars of this one count.
      have hflat := (flat_of_reads hbody (Option.some_ne_none _)).1
      have hbodyflat : functionsIn (preorder true body) = [] := by
        rw [preorder_true_eq body hflat, hflat]
      rcases kind_of_arity? hcount with ⟨i, hi⟩
      rw [barsOutside_bar hbar,
        barsOutside_cons (by simp [Token.Plain, Token.depthAfter, hname]),
        barsOutside_cons (by simp [Token.Plain, Token.depthAfter, hparen]),
        barsOutside_of_parameters hps, ihbody, barsOutside_keyword he, Token.depthAfter, he,
        barsOutside_cons (by simp [Token.Plain, Token.depthAfter, hi]),
        barsOutside_bar hbar', ihss, functionsIn_nestedIn_cons, functionsIn_nestedIn hbodyflat]
      simp only [Stmt.function?, Stmt.enclosed, reduceCtorEq, or_false, if_true, hbodyflat,
        true_and, and_assoc, and_self_left]

/-- The end of a text is no bar. -/
theorem barsOutside_append_end (finish : Location) (depth : Nat) :
    barsOutside depth (ts ++ [Token.endAt finish]) = barsOutside depth ts := by
  induction ts generalizing depth with
  | nil => exact barsOutside_cons (by simp [Token.Plain, Token.depthAfter, Token.endAt]) depth
  | cons t ts ih => rw [List.cons_append, barsOutside, ih, barsOutside]

end Bars

/-- If no function is nested, all are declared directly at the top level. -/
theorem Program.mem_functions {p : Program} (hnested : p.nested = []) {f : Function}
    (hf : f ∈ functionsIn (preorder true p.statements)) : f ∈ p.functions := by
  rcases mem_preorder_iff.1 (mem_functionsIn.1 hf) with hf | ⟨s, hs, hf⟩
  · exact mem_functionsIn.2 hf
  · have hmem : f ∈ p.nested := mem_functionsIn.2 (List.mem_flatMap.2 ⟨s, hs, hf⟩)
    rw [hnested] at hmem
    cases hmem

/-- If no function is nested, the name of every call is that of a function at the top
    level. -/
theorem Program.Resolved.exists_function_of_call {p : Program} (h : p.Resolved)
    (hnested : p.nested = []) {x : String} {loc : Location}
    (hcall : Stmt.call x loc ∈ preorder true p.statements) : ∃ f ∈ p.functions, f.name = x := by
  rcases mem_functionNamesIn.1 (h.mem_of_call hcall) with ⟨f, hf, hname⟩
  exact ⟨f, Program.mem_functions hnested (h.mem_functionsIn_preorder.2 hf), hname⟩

theorem Program.Resolved.body_functionFree {p : Program} (h : p.Resolved) {f : Function}
    (hf : f ∈ functionsIn (preorder true p.statements)) :
    functionsIn (preorder true f.body) = [] := by
  rcases h.exists_allowsFunction (h.mem_functionsIn_preorder.1 hf) with ⟨before, hallows⟩
  rw [preorder_true_eq f.body hallows.flat, hallows.flat]

/-- In the program of a source text all functions are declared directly at the top level
    exactly when no bar of the text stands in a branch or a loop. None is ever declared in the
    body of another. If all are at the top level, every name that is called is the name of one
    of them. -/
theorem nested_eq_nil_iff_barsOutside {source : String} {p : Program}
    (h : compile source = .ok p) :
    (∃ ts, tokenize source = .ok ts ∧ (p.nested = [] ↔ barsOutside 0 ts)) ∧
      (∀ f ∈ functionsIn (preorder true p.statements), functionsIn (preorder true f.body) = []) ∧
      (p.nested = [] → ∀ x loc, Stmt.call x loc ∈ preorder true p.statements →
        ∃ f ∈ p.functions, f.name = x) := by
  have hresolved := resolved_of_compile h
  refine ⟨?_, fun f hf => hresolved.body_functionFree hf,
    fun hnested x loc hcall => hresolved.exists_function_of_call hnested hcall⟩
  rcases reads_of_compile h with ⟨ts, finish, n', htokens, hreads, _⟩
  refine ⟨_, htokens, ?_⟩
  -- At depth zero the statements that do not stand at the top level are the nested ones.
  rw [barsOutside_append_end, barsOutside_of_reads hreads 0]
  exact ⟨fun hnested => ⟨hnested, rfl⟩, fun hbars => hbars.1⟩

/-- A function at the top level that is called in a branch before it. -/
def calledEarly : Program :=
  ⟨[.literal (.bool true) ⟨1, 1⟩, .ifThen [.call "F" ⟨1, 9⟩] ⟨1, 6⟩,
    .function ⟨"F", [], [], .one, ⟨1, 16⟩⟩ [.literal (.int 1) ⟨1, 24⟩]], []⟩

theorem nested_calledEarly :
    compile "True IF F THEN | F ( ) 1 RETURN 1 |" = .ok calledEarly ∧ calledEarly.nested = [] := by
  have h : compile "True IF F THEN | F ( ) 1 RETURN 1 |" = .ok calledEarly := by
    with_unfolding_all rfl
  rcases (nested_eq_nil_iff_barsOutside h).1 with ⟨ts, htokens, hiff⟩
  refine ⟨h, hiff.2 ?_⟩
  have hts : (tokenize "True IF F THEN | F ( ) 1 RETURN 1 |").map (barsOutside 0) = .ok true := by
    with_unfolding_all rfl
  rw [htokens] at hts
  exact Except.ok.inj hts

/-- A function in a branch, and a call of it after the branch. -/
def branchFunction : Program :=
  ⟨[.literal (.bool true) ⟨1, 1⟩,
    .ifThen [.function ⟨"F", [], [], .one, ⟨1, 9⟩⟩ [.literal (.int 1) ⟨1, 17⟩]] ⟨1, 6⟩,
    .call "F" ⟨1, 35⟩], []⟩

theorem nested_branchFunction :
    compile "True IF | F ( ) 1 RETURN 1 | THEN F" = .ok branchFunction ∧
      branchFunction.nested = [⟨⟨"F", [], [], .one, ⟨1, 9⟩⟩, [.literal (.int 1) ⟨1, 17⟩]⟩] ∧
      branchFunction.functions = [] := by
  exact ⟨by with_unfolding_all rfl, rfl, rfl⟩

end StackLang
