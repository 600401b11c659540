import StackLang.Program

/-!
# Statements in pre-order

A program is a tree, and most of what can be said about all of its statements
is about a list: the statements in the order of their first tokens, each before
those it encloses. `preorder` is that list.

Functions get a choice. What stands in a body belongs to another scope than what
stands around the function, so a traversal either enters bodies or passes over
them. The two agree on what is outside of bodies, and a statement that only the
first one finds lies in the body of a function that is found too:
`mem_preorder_true_iff`. Where no function is declared there is no difference:
`preorder_true_eq`.

## Main definitions

* `Stmt.enclosed`: The statements that a statement encloses, in order.
* `preorder`: All statements of a block, in order.
* `functionsIn`: The functions among some statements.
* `Program.nested`: The functions that are enclosed by other statements.

## Theorems

* `preorder_append`: The order of two blocks in turn.
* `mem_preorder_iff`: What occurs in a block.
* `mem_preorder_true_iff`: What occurs in a block or in a body.
* `preorder_true_eq`: Without functions there are no bodies to enter.
* `functionsIn_preorder_true`: Without functions in bodies none are found there.
-/

namespace StackLang

mutual

/-- The statements that a statement encloses, in source order. Those in the body
    of a function count if `bodies` says so. -/
def Stmt.enclosed (bodies : Bool) : Stmt → List Stmt
  | .ifThen block _ => preorder bodies block
  | .ifElse block other _ => preorder bodies block ++ preorder bodies other
  | .loop condition body _ => preorder bodies condition ++ preorder bodies body
  | .function _ body => if bodies then preorder bodies body else []
  | .literal _ _ | .operator _ _ | .declare _ _ | .read _ _ | .assign _ _ | .call _ _
  | .print _ => []

/-- The statements of a block and those they enclose, in source order. -/
def preorder (bodies : Bool) : List Stmt → List Stmt
  | [] => []
  | s :: ss => s :: (s.enclosed bodies ++ preorder bodies ss)

end

/-- The functions among some statements, without those they enclose. -/
def functionsIn (ss : List Stmt) : List Function := ss.filterMap Stmt.function?

/-- The functions that are not declared directly at the top level. -/
def Program.nested (p : Program) : List Function :=
  functionsIn (p.statements.flatMap fun s => s.enclosed true)

@[simp]
theorem preorder_nil (bodies : Bool) : preorder bodies [] = [] := by
  rw [preorder]

@[simp]
theorem preorder_cons (bodies : Bool) (s : Stmt) (ss : List Stmt) :
    preorder bodies (s :: ss) = s :: (s.enclosed bodies ++ preorder bodies ss) := by
  rw [preorder]

theorem preorder_append (bodies : Bool) (ss ss' : List Stmt) :
    preorder bodies (ss ++ ss') = preorder bodies ss ++ preorder bodies ss' := by
  induction ss with
  | nil => rw [List.nil_append, preorder_nil, List.nil_append]
  | cons s ss ih =>
      rw [List.cons_append, preorder_cons, preorder_cons, ih, List.cons_append, List.append_assoc]

theorem mem_preorder_iff {bodies : Bool} {t : Stmt} {ss : List Stmt} :
    t ∈ preorder bodies ss ↔ t ∈ ss ∨ ∃ s ∈ ss, t ∈ s.enclosed bodies := by
  induction ss with
  | nil => simp only [preorder_nil, List.not_mem_nil, false_and, exists_false, or_false]
  | cons s ss ih =>
      rw [preorder_cons, List.mem_cons, List.mem_append, ih, List.mem_cons]
      constructor
      · rintro (ht | ht | ht | ⟨u, hu, ht⟩)
        · exact .inl (.inl ht)
        · exact .inr ⟨s, List.mem_cons_self, ht⟩
        · exact .inl (.inr ht)
        · exact .inr ⟨u, List.mem_cons_of_mem s hu, ht⟩
      · rintro ((ht | ht) | ⟨u, hu, ht⟩)
        · exact .inl ht
        · exact .inr (.inr (.inl ht))
        · rcases List.mem_cons.1 hu with rfl | hu
          · exact .inr (.inl ht)
          · exact .inr (.inr (.inr ⟨u, hu, ht⟩))

@[simp]
theorem functionsIn_nil : functionsIn [] = [] := rfl

@[simp]
theorem functionsIn_cons (s : Stmt) (ss : List Stmt) :
    functionsIn (s :: ss) = s.function?.toList ++ functionsIn ss := by
  rw [functionsIn, List.filterMap_cons]
  cases s.function? <;> rfl

@[simp]
theorem functionsIn_append (ss ss' : List Stmt) :
    functionsIn (ss ++ ss') = functionsIn ss ++ functionsIn ss' := List.filterMap_append

theorem mem_functionsIn {f : Function} {ss : List Stmt} :
    f ∈ functionsIn ss ↔ Stmt.function f.toSignature f.body ∈ ss := by
  rw [functionsIn, List.mem_filterMap]
  constructor
  · rintro ⟨s, hs, hf⟩
    cases s with
    | function signature body => cases hf; exact hs
    | literal | operator | declare | read | assign | ifThen | ifElse | loop | call | print =>
        cases hf
  · intro h
    exact ⟨_, h, rfl⟩

mutual

theorem Stmt.mem_enclosed_true_iff {t : Stmt} : ∀ s : Stmt,
    t ∈ s.enclosed true ↔
      t ∈ s.enclosed false ∨
        ∃ signature body, (Stmt.function signature body = s ∨
          Stmt.function signature body ∈ s.enclosed false) ∧ t ∈ preorder true body
  | .ifThen block loc => by
      have h := mem_preorder_true_iff (t := t) block
      simp only [Stmt.enclosed, reduceCtorEq, false_or]
      exact h
  | .ifElse block other loc => by
      have h := mem_preorder_true_iff (t := t) block
      have h' := mem_preorder_true_iff (t := t) other
      simp only [Stmt.enclosed, reduceCtorEq, false_or, List.mem_append]
      grind
  | .loop condition body loc => by
      have h := mem_preorder_true_iff (t := t) condition
      have h' := mem_preorder_true_iff (t := t) body
      simp only [Stmt.enclosed, reduceCtorEq, false_or, List.mem_append]
      grind
  | .function signature body => by
      -- Here the two orders part: one of them enters the body.
      simp only [Stmt.enclosed, if_true, Bool.false_eq_true, if_false, List.not_mem_nil, false_or,
        or_false, Stmt.function.injEq]
      exact ⟨fun h => ⟨signature, body, ⟨rfl, rfl⟩, h⟩, fun ⟨_, _, ⟨_, hbody⟩, h⟩ => hbody ▸ h⟩
  | .literal _ _ | .operator _ _ | .declare _ _ | .read _ _ | .assign _ _ | .call _ _
  | .print _ => by
      simp only [Stmt.enclosed, List.not_mem_nil, reduceCtorEq, or_self, false_and, exists_false]

/-- A statement occurs outside of bodies or in the body of a function that does. -/
theorem mem_preorder_true_iff {t : Stmt} : ∀ ss : List Stmt,
    t ∈ preorder true ss ↔
      t ∈ preorder false ss ∨
        ∃ signature body, Stmt.function signature body ∈ preorder false ss ∧
          t ∈ preorder true body
  | [] => by simp only [preorder_nil, List.not_mem_nil, false_and, exists_false, or_self]
  | s :: ss => by
      have hs := s.mem_enclosed_true_iff (t := t)
      have h := mem_preorder_true_iff (t := t) ss
      simp only [preorder_cons, List.mem_cons, List.mem_append]
      grind

end

mutual

theorem Stmt.enclosed_true_eq : ∀ s : Stmt, s.function? = none →
    functionsIn (s.enclosed false) = [] → s.enclosed true = s.enclosed false
  | .ifThen block loc, _, h => by
      simp only [Stmt.enclosed] at h ⊢
      exact preorder_true_eq block h
  | .ifElse block other loc, _, h => by
      simp only [Stmt.enclosed, functionsIn_append, List.append_eq_nil_iff] at h ⊢
      rw [preorder_true_eq block h.1, preorder_true_eq other h.2]
  | .loop condition body loc, _, h => by
      simp only [Stmt.enclosed, functionsIn_append, List.append_eq_nil_iff] at h ⊢
      rw [preorder_true_eq condition h.1, preorder_true_eq body h.2]
  | .function signature body, hs, _ => nomatch hs
  | .literal _ _, _, _ | .operator _ _, _, _ | .declare _ _, _, _ | .read _ _, _, _
  | .assign _ _, _, _ | .call _ _, _, _ | .print _, _, _ => by simp only [Stmt.enclosed]

/-- Without functions there are no bodies to enter. -/
theorem preorder_true_eq : ∀ ss : List Stmt,
    functionsIn (preorder false ss) = [] → preorder true ss = preorder false ss
  | [], _ => by rw [preorder_nil, preorder_nil]
  | s :: ss, h => by
      simp only [preorder_cons, functionsIn_cons, functionsIn_append, List.append_eq_nil_iff,
        Option.toList_eq_nil_iff] at h ⊢
      rw [s.enclosed_true_eq h.1 h.2.1, preorder_true_eq ss h.2.2]

end

mutual

theorem Stmt.functionsIn_enclosed_true : ∀ s : Stmt,
    (∀ f ∈ s.function?.toList ++ functionsIn (s.enclosed false),
      functionsIn (preorder false f.body) = []) →
      functionsIn (s.enclosed true) = functionsIn (s.enclosed false)
  | .ifThen block loc, h => by
      simp only [Stmt.enclosed, Stmt.function?, Option.toList_none, List.nil_append] at h ⊢
      exact functionsIn_preorder_true block h
  | .ifElse block other loc, h => by
      simp only [Stmt.enclosed, Stmt.function?, Option.toList_none, List.nil_append,
        functionsIn_append, List.forall_mem_append] at h ⊢
      rw [functionsIn_preorder_true block h.1, functionsIn_preorder_true other h.2]
  | .loop condition body loc, h => by
      simp only [Stmt.enclosed, Stmt.function?, Option.toList_none, List.nil_append,
        functionsIn_append, List.forall_mem_append] at h ⊢
      rw [functionsIn_preorder_true condition h.1, functionsIn_preorder_true body h.2]
  | .function signature body, h => by
      -- The body that is entered is one without functions.
      have hbody : functionsIn (preorder false body) = [] :=
        h ⟨signature, body⟩ (List.mem_append_left _ (List.mem_singleton.2 rfl))
      simp only [Stmt.enclosed, if_true, Bool.false_eq_true, if_false, functionsIn_nil]
      rw [preorder_true_eq body hbody, hbody]
  | .literal _ _, _ | .operator _ _, _ | .declare _ _, _ | .read _ _, _ | .assign _ _, _
  | .call _ _, _ | .print _, _ => by simp only [Stmt.enclosed]

/-- If there are no functions in bodies, entering bodies finds no more of them. -/
theorem functionsIn_preorder_true : ∀ ss : List Stmt,
    (∀ f ∈ functionsIn (preorder false ss), functionsIn (preorder false f.body) = []) →
      functionsIn (preorder true ss) = functionsIn (preorder false ss)
  | [], _ => by rw [preorder_nil, preorder_nil]
  | s :: ss, h => by
      simp only [preorder_cons, functionsIn_cons, functionsIn_append] at h ⊢
      rw [← List.append_assoc, List.forall_mem_append] at h
      rw [s.functionsIn_enclosed_true h.1, functionsIn_preorder_true ss h.2]

end

end StackLang
