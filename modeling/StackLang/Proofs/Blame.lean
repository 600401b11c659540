import StackLang.Proofs.Failing
import StackLang.Proofs.Positions

/-!
# Errors point at the statement that failed

The location of an error, and the statement that stands there.

A step that fails runs a statement, or goes back to one: the test after the condition of a loop
belongs to the loop, and the end of a call to the call. `Machine.active?` is this statement, and
since control is a path in the program, it is a statement of the program in every state:
`Machine.OnPath.mem_preorder_of_active?`. What kind of statement it is follows from the fault, as
`Machine.Blames` lists, and the location of the error is that of the statement.

In a source text no two statements begin at the same place, so the location alone tells which
statement has failed: `blames_of_run`.

## Main definitions

* `Machine.Blames`: The statements that can fail with a fault.

## Theorems

* `mem_preorder_of_enclosed`: What is enclosed in a statement of a block is in the block.
* `Path.mem_preorder`: What a path has passed, and what is ahead, is in the body.
* `Machine.OnPath.mem_preorder_of_active?`: The active statement is one of the program.
* `Machine.blames_of_fails`: The fault of a statement that fails.
* `blames_of_run`: The location of an error is that of the statement that failed.
-/

namespace StackLang

variable {σ : Type}

mutual

theorem Stmt.mem_enclosed_of_enclosed {bodies : Bool} {t u : Stmt} (hu : u ∈ t.enclosed bodies) :
    ∀ s : Stmt, t ∈ s.enclosed bodies → u ∈ s.enclosed bodies
  | .ifThen block loc, h => by
      rw [Stmt.enclosed] at h ⊢
      exact mem_preorder_of_enclosed hu block h
  | .ifElse block other loc, h => by
      rw [Stmt.enclosed, List.mem_append] at h ⊢
      exact h.imp (mem_preorder_of_enclosed hu block) (mem_preorder_of_enclosed hu other)
  | .loop condition body loc, h => by
      rw [Stmt.enclosed, List.mem_append] at h ⊢
      exact h.imp (mem_preorder_of_enclosed hu condition) (mem_preorder_of_enclosed hu body)
  | .function signature body, h => by
      cases bodies with
      | false => exact absurd h List.not_mem_nil
      | true =>
          simp only [Stmt.enclosed, if_true] at h ⊢
          exact mem_preorder_of_enclosed hu body h
  | .literal _ _, h | .operator _ _, h | .declare _ _, h | .read _ _, h | .assign _ _, h
  | .call _ _, h | .print _, h => absurd h List.not_mem_nil

/-- What is enclosed in a statement of a block is in the block. -/
theorem mem_preorder_of_enclosed {bodies : Bool} {t u : Stmt} (hu : u ∈ t.enclosed bodies) :
    ∀ ss : List Stmt, t ∈ preorder bodies ss → u ∈ preorder bodies ss
  | [], h => by
      rw [preorder_nil] at h
      cases h
  | s :: ss, h => by
      rw [preorder_cons, List.mem_cons, List.mem_append] at h ⊢
      rcases h with rfl | h | h
      · exact .inr (.inl hu)
      · exact .inr (.inl (Stmt.mem_enclosed_of_enclosed hu s h))
      · exact .inr (.inr (mem_preorder_of_enclosed hu ss h))

end

theorem Stmt.Opens.mem_enclosed {s t : Stmt} {block : List Stmt} {role : Role}
    (h : s.Opens block role) (ht : t ∈ block) : t ∈ s.enclosed false := by
  have hpre : t ∈ preorder false block := mem_preorder_iff.2 (.inl ht)
  cases h with
  | branch => exact hpre
  | block => exact List.mem_append_left _ hpre
  | other => exact List.mem_append_right _ hpre
  | condition => exact List.mem_append_left _ hpre
  | body => exact List.mem_append_right _ hpre

/-- What the innermost cursor of a path has passed, and what it has ahead, is in the body. -/
theorem Path.mem_preorder {body passed : List Stmt} {c : Cursor} {outer : List Cursor} {t : Stmt}
    (h : Path body (c :: outer) passed) (ht : t ∈ passed ++ c.rest) : t ∈ preorder false body := by
  generalize hcs : c :: outer = cs at h
  induction h generalizing c outer t with
  | bottom hbody =>
      cases hcs
      rw [hbody]
      exact mem_preorder_iff.2 (.inl ht)
  | @inner d outer before block passed rest s role houter hopens hblock ih =>
      cases hcs
      -- The block belongs to a statement that the cursor below has passed.
      have hs : s ∈ preorder false body := by
        refine ih (List.mem_append_left _ ?_) rfl
        exact List.mem_append_right _ (List.mem_singleton.2 rfl)
      exact mem_preorder_of_enclosed (hopens.mem_enclosed (hblock ▸ ht)) body hs

theorem Path.mem_preorder_of_last {body before : List Stmt} {cs : List Cursor} {s : Stmt}
    (h : Path body cs (before ++ [s])) : s ∈ preorder false body := by
  rcases h.exists_cons with ⟨c, outer, rfl⟩
  refine h.mem_preorder (List.mem_append_left _ ?_)
  exact List.mem_append_right _ (List.mem_singleton.2 rfl)

/-- The statement that a cursor runs or goes back to is in the body. -/
theorem Path.mem_preorder_of_active? {body passed : List Stmt} {c : Cursor} {outer : List Cursor}
    {s : Stmt} (h : Path body (c :: outer) passed) (hactive : c.active? = some s) :
    s ∈ preorder false body := by
  rcases c with ⟨_ | ⟨t, rest⟩, role⟩
  · cases role with
    | sequence => cases hactive
    | condition l =>
        cases hactive
        rcases h.exists_outer_loop (.inl rfl) with ⟨before, houter⟩
        exact houter.mem_preorder_of_last
    | body l =>
        cases hactive
        rcases h.exists_outer_loop (.inr rfl) with ⟨before, houter⟩
        exact houter.mem_preorder_of_last
  · cases hactive
    exact h.mem_preorder (List.mem_append_right _ List.mem_cons_self)

/-- What stands in the block of a frame stands in the program. -/
theorem CallStack.Linked.mem_preorder {p : Program} {c : CallStack} {s : Stmt} (h : c.Linked p)
    (hs : s ∈ preorder false (c.block p)) : s ∈ preorder true p.statements := by
  rw [mem_preorder_true_iff]
  rcases c with ⟨global, _ | ⟨call, outer⟩, depth, hdepth⟩
  · exact .inl hs
  · -- The function is one of the top level, and its body is in its declaration.
    have hf := (mem_of_look (h.of_pop? rfl).1).1
    have hdeclared := mem_functionsIn.1 (Program.mem_preorder_of_mem_functions hf)
    exact .inr ⟨_, _, hdeclared, (mem_preorder_true_iff _).2 (.inl hs)⟩

namespace Machine

/-- The active statement is one of the program. -/
theorem OnPath.mem_preorder_of_active? {p : Program} {m : Machine σ} {s : Stmt} (h : m.OnPath p)
    (hactive : m.active? = some s) : s ∈ preorder true p.statements := by
  unfold active? at hactive
  cases hcs : m.calls.current.cursors with
  | cons c outer =>
      rw [hcs] at hactive
      rcases h.current with hnil | ⟨passed, hpath⟩
      · rw [hcs] at hnil
        cases hnil
      · rw [hcs] at hpath
        exact h.linked.mem_preorder (hpath.mem_preorder_of_active? hactive)
  | nil =>
      -- The call that is over is in the block of the frame that has made it.
      rw [hcs] at hactive
      rcases Option.map_eq_some_iff.1 hactive with ⟨call, hcall, rfl⟩
      rcases m with ⟨program, limit, ⟨global, _ | ⟨top, outer⟩, depth, hdepth⟩, sink⟩
      · cases hcall
      · cases hcall
        rcases h.linked.of_pop? rfl with ⟨_, ⟨before, hpath⟩, hcallers⟩
        exact hcallers.mem_preorder hpath.mem_preorder_of_last

/-- The statement can be blamed for the fault, in the given state. A call is blamed for too few
    arguments, and at its end for too few results. Then the frame that goes on has passed the
    call last. -/
inductive Blames (p : Program) (m : Machine σ) : Stmt → Fault → Prop
  | typeMismatch {op : Operator} {loc : Location} {lhs rhs : ValueType} :
      Blames p m (.operator op loc) (.typeMismatch op lhs rhs)
  | integerOverflow {op : Operator} {loc : Location} {lhs rhs : Integer} :
      Blames p m (.operator op loc) (.integerOverflow op lhs rhs)
  | divisionByZero {loc : Location} : Blames p m (.operator .div loc) .divisionByZero
  | predicate {s : Stmt} {v : Value} (hs : s.Decides) : Blames p m s (.invalidPredicate v)
  | tooDeep {name : String} {loc : Location} :
      Blames p m (.call name loc) (.recursionLimit name m.limit)
  | undefined {name : String} {loc : Location} :
      Blames p m (.call name loc) (.undefinedName name)
  | output {reason : String} {loc : Location} : Blames p m (.print loc) (.outputFailed reason)
  | operands {op : Operator} {loc : Location} (hsize : m.calls.current.stack.size < 2) :
      Blames p m (.operator op loc) (.stackUnderflow 2 m.calls.current.stack.size)
  | value {s : Stmt} (hs : s.TakesOne) (hsize : m.calls.current.stack.size = 0) :
      Blames p m s (.stackUnderflow 1 0)
  | arguments {name : String} {loc : Location} {f : Function} (hlook : m.look name = .ok f)
      (hsize : m.calls.current.stack.size < f.parameters.length) :
      Blames p m (.call name loc)
        (.stackUnderflow f.parameters.length m.calls.current.stack.size)
  | results {call : CallFrame} {callers : CallStack} (hpop : m.calls.pop? = some (call, callers))
      (hcursors : call.cursors = []) (hlook : m.look call.function.name = .ok call.function)
      (hsite : Awaits (callers.block p) callers.current.cursors call)
      (hsize : call.stack.size < call.function.arity.count) :
      Blames p m (.call call.function.name call.site)
        (.stackUnderflow call.function.arity.count call.stack.size)

theorem Blames.available_lt {p : Program} {m : Machine σ} {s : Stmt} {needed available : Nat}
    (h : m.Blames p s (.stackUnderflow needed available)) : available < needed := by
  cases h with
  | operands hsize => exact hsize
  | value hs hsize => exact Nat.zero_lt_one
  | arguments hlook hsize => exact hsize
  | results hpop hcursors hlook hsite hsize => exact hsize

section Steps

variable [Sink σ] {p : Program} {m m' : Machine σ} {e : RuntimeError}

theorem blames_of_fails {s : Stmt} {fault : Fault} {b : Store σ}
    (h : Fails m.look m.limit m.calls.depth m.store s fault b) : m.Blames p s fault := by
  cases h with
  | operands hsize => exact .operands hsize
  | operation hpop happly =>
      rcases Operator.fault_of_apply happly with ⟨rfl, rfl⟩ | ⟨x, y, rfl⟩ | rfl
      · exact .divisionByZero
      · exact .integerOverflow
      · exact .typeMismatch
  | value hs hsize => exact .value hs hsize
  | predicate hs hpop hv => exact .predicate hs
  | output hpop hemit => exact .output
  | undefined hlook => exact .undefined
  | tooDeep hlimit => exact .tooDeep
  | arguments hlook hsize => exact .arguments hlook hsize

/-- A step fails at the statement that is active, with a fault that it can be blamed for. -/
theorem exists_blames_of_failed (hfits : m.Fits p) (hpath : m.OnPath p) (hp : p.Resolved)
    (hstep : m.step = .failed e m') :
    ∃ s, m.active? = some s ∧ s.loc = e.loc ∧ m.Blames p s e.fault := by
  rcases hfits.failed_cases hp hstep with
    ⟨c, outer, s, b, cs, hcs, hactive, hloc, hfails, _⟩ | hreturn
  · exact ⟨s, by rw [active?, hcs]; exact hactive, hloc, blames_of_fails hfails⟩
  · rcases hreturn.returned with ⟨call, hpop, hcursors, hsize, rfl⟩
    rcases hpath.linked.of_pop? hpop with ⟨hbound, hsite, _⟩
    have hpush := CallStack.eq_push_of_pop? hpop
    -- Nothing remains in the frame, so the active statement is the call it was made by.
    refine ⟨.call call.function.name call.site, ?_, rfl, ?_⟩
    · have hcurrent : m.calls.current.cursors = [] := by
        rw [hpush]
        exact hcursors
      rw [active?, hcurrent, hpush]
      rfl
    · exact .results hpop hcursors (hfits.look ▸ hbound) hsite hsize

end Steps

end Machine

/-- Where locations increase, a statement is the only one at its location. -/
theorem exists_split_of_pairwise {ss : List Stmt} {s : Stmt}
    (h : ss.Pairwise fun s t => s.loc.Before t.loc) (hs : s ∈ ss) :
    ∃ before after, ss = before ++ s :: after ∧ ∀ t ∈ before ++ after, t.loc ≠ s.loc := by
  rcases List.append_of_mem hs with ⟨before, after, rfl⟩
  refine ⟨before, after, rfl, ?_⟩
  rw [List.pairwise_append, List.pairwise_cons] at h
  rcases h with ⟨_, ⟨hafter, _⟩, hbefore⟩
  intro t ht
  rcases List.mem_append.1 ht with ht | ht
  · exact (hbefore t ht s List.mem_cons_self).ne
  · exact (hafter t ht).ne.symm

/-- When a run of the program of a source text fails, whatever the limit, the sink and the
    initial stack, its error points at the statement that was active in the last state: this is
    a statement of the program of the kind that the fault is about, and its location is that of
    the error. No other statement of the program has this location, since the locations increase
    in source order. Where values are missing, fewer are available than needed. -/
theorem blames_of_run [Sink σ] {source : String} {m m' : Machine σ}
    (hcompile : compile source = .ok m.program) {initial : List Integer} {fuel : Nat}
    {e : RuntimeError} (hrun : m.run fuel initial = some (.error e, m')) :
    (∃ start last s, m.load initial = .ok start ∧ start.Reaches last ∧
      last.step = .failed e m' ∧ last.active? = some s ∧ s.loc = e.loc ∧
      last.Blames m.program s e.fault ∧
      ∃ before after, preorder true m.program.statements = before ++ s :: after ∧
        ∀ t ∈ before ++ after, t.loc ≠ e.loc) ∧
      ((preorder true m.program.statements).Pairwise fun s t => s.loc.Before t.loc) ∧
      ∀ needed available, e.fault = .stackUnderflow needed available → available < needed := by
  have hp := resolved_of_compile hcompile
  have horder := pairwise_preorder_of_compile hcompile
  rcases Machine.exists_of_run_error hp hrun with ⟨start, last, hload, hreach, hfits, hstep⟩
  have hlast : last.InRunOf m.program m.limit := ⟨m, start, initial, rfl, rfl, hload, hreach⟩
  rcases Machine.exists_blames_of_failed hfits hlast.onPath hp hstep with
    ⟨s, hactive, hloc, hblames⟩
  refine ⟨⟨start, last, s, hload, hreach, hstep, hactive, hloc, hblames, ?_⟩, horder, ?_⟩
  · rw [← hloc]
    exact exists_split_of_pairwise horder (hlast.onPath.mem_preorder_of_active? hactive)
  · intro needed available hfault
    rw [hfault] at hblames
    exact hblames.available_lt

/-- A function with a loop that replaces the boolean it tests by a number. -/
def falteringLoop : Program :=
  ⟨[.function ⟨"F", ["n"], [], .one, ⟨1, 1⟩⟩
      [.loop [.read "n" ⟨1, 23⟩] [.literal (.int 1) ⟨1, 31⟩, .assign "n" ⟨1, 33⟩] ⟨1, 17⟩,
        .read "n" ⟨1, 49⟩],
    .literal (.bool true) ⟨1, 62⟩, .call "F" ⟨1, 67⟩], []⟩

/-- The loop fails when it comes round, and is the only statement at the place of the error. -/
theorem blames_falteringLoop :
    ∃ m' before s after, (Machine.idle falteringLoop 1 Transcript.empty).run 20 [] =
        some (.error ⟨.invalidPredicate (.int 1), ⟨1, 17⟩⟩, m') ∧
      preorder true falteringLoop.statements = before ++ s :: after ∧ s.loc = ⟨1, 17⟩ ∧
      s.Decides ∧ ∀ t ∈ before ++ after, t.loc ≠ ⟨1, 17⟩ := by
  have hcompile : compile "| F ( VALUE n ) BEGIN n WHILE 1 ASSIGN n REPEAT n RETURN 1 | True F" =
      .ok falteringLoop := by with_unfolding_all rfl
  have hrun : (Machine.idle falteringLoop 1 Transcript.empty).run 20 [] =
      some (.error ⟨.invalidPredicate (.int 1), ⟨1, 17⟩⟩, _) := rfl
  rcases (blames_of_run hcompile hrun).1 with
    ⟨start, last, s, _, _, _, _, hloc, hblames, before, after, hsplit, hunique⟩
  cases hblames with
  | predicate hs => exact ⟨_, before, s, after, hrun, hsplit, hloc, hs, hunique⟩

end StackLang
