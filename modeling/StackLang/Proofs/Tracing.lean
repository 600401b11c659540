import Mathlib.Data.List.Forall2
import StackLang.Proofs.Brackets
import StackLang.Proofs.Observers
import StackLang.Proofs.Tree

/-!
# The events of a parse

What an observer is told is the tree, written out.

The events of a statement that has been read are its announcement, the events of its parts one
after the other, and the report that it is complete. `Mirrors` says so for the statements of a
block, and everything else follows from it by induction: such events are well bracketed, report
no failure, and announce the statements of the tree in pre-order.

In the middle of a parse some statements have been announced and not yet reported. Each of
them has got the events of the statements before it in its block, its announcement, and the
events of the blocks it has completed; `Underway` strings these together from the outermost
open construct to the innermost one, and the events of the current block come last. A step
keeps this, `Reading.mirrored_of_step`, because what a token leads to is a statement of the
form and the place that have been announced, with the blocks that have been read as its parts:
`fits_of_begin?` and `fits_of_close?`. At the end of a parse that succeeds nothing is open. A
failure leaves all that is open, and that is the last that happens.

## Main definitions

* `Stmt.rules`, `Stmt.parts`: How a statement may be announced, and what it encloses directly.
* `Progress.Fits`: What the tokens amount to is what has been announced.
* `Mirrors`: The events of statements that have been read.
* `Underway`: The events of the constructs that are open.
* `Interrupted`: The events of a parse that fails.
* `Accounts`: The events of a parse that has ended.
* `Parser.Traced`: What can be said of the events of a call.

## Theorems

* `Mirrors.openAfter_eq`, `Mirrors.not_failed`, `Mirrors.entered`: What follows from the
  shape of the events.
* `Reading.mirrored_of_step`: A step keeps the shape of the events.
* `Reading.accounts_of_run`: The events of a whole parse.
* `traced_after`: Any number of calls with an observer, and the events of each.
-/

namespace StackLang

/-- The forms that a statement can be announced as. An assignment starts with a name or with
    `ASSIGN`. -/
def Stmt.rules : Stmt → List Rule
  | .literal _ _ => [.literal]
  | .operator _ _ => [.operator]
  | .declare _ _ => [.declaration]
  | .read _ _ => [.identifier]
  | .assign _ _ => [.identifier, .assignment]
  | .ifThen _ _ => [.conditional]
  | .ifElse _ _ _ => [.conditional]
  | .loop _ _ _ => [.loop]
  | .function _ _ => [.function]
  | .call _ _ => [.identifier]
  | .print _ => [.print]

/-- The statements that a statement encloses directly, in source order. -/
def Stmt.parts : Stmt → List Stmt
  | .ifThen block _ => block
  | .ifElse block other _ => block ++ other
  | .loop condition body _ => condition ++ body
  | .function _ body => body
  | .literal _ _ | .operator _ _ | .declare _ _ | .read _ _ | .assign _ _ | .call _ _
  | .print _ => []

/-- A statement is announced in this form and by this token. -/
def Stmt.AnnouncedBy (s : Stmt) (rule : Rule) (t : Token) : Prop :=
  rule ∈ s.rules ∧ t.loc = s.loc

theorem Stmt.enclosed_true (s : Stmt) : s.enclosed true = preorder true s.parts := by
  cases s with
  | ifElse block other loc => simp only [enclosed, parts, preorder_append]
  | loop condition body loc => simp only [enclosed, parts, preorder_append]
  | ifThen | function => simp only [enclosed, parts, if_true]
  | literal | operator | declare | read | assign | call | print =>
      simp only [enclosed, parts, preorder_nil]

/-- The form of the statement that a construct will be. -/
def Construct.rule : Construct → Rule
  | .branch | .alternative _ => .conditional
  | .condition | .body _ => .loop
  | .function _ _ => .function

/-- The statements of the blocks that have been read before the current one. -/
def Construct.earlier : Construct → List Stmt
  | .alternative block => block
  | .body test => test
  | .branch | .condition | .function _ _ => []

/-- What the tokens just read amount to has the given form, place and parts, as far as it is
    known. -/
def Progress.Fits (rule : Rule) (loc : Location) (parts : List Stmt) : Progress → Prop
  | .statement s => rule ∈ s.rules ∧ s.loc = loc ∧ s.parts = parts
  | .block c => c.rule = rule ∧ c.earlier = parts

section Actions

open ParseM

variable {p q : Parser} {t : Token} {r : Progress}

theorem fits_of_resolve (h : resolve t p = .ok r q) : r.Fits .identifier t.loc [] := by
  rcases exists_of_bind h with ⟨n, p₁, hn, h⟩
  by_cases hvar : n.isVariable t.text
  · rw [if_pos hvar] at h
    rcases exists_of_bind h with ⟨assigned, p₂, _, h⟩
    cases h
    cases assigned <;> exact ⟨List.mem_cons_self, rfl, rfl⟩
  · rw [if_neg hvar] at h
    by_cases hfunction : n.isFunction t.text
    · rw [if_pos hfunction] at h
      cases h
      exact ⟨List.mem_cons_self, rfl, rfl⟩
    · rw [if_neg hfunction] at h
      exact absurd h unresolved_ne_ok

theorem fits_of_declaration (h : declaration t p = .ok r q) : r.Fits .declaration t.loc [] := by
  rcases exists_of_bind h with ⟨name, p₁, _, h⟩
  rcases exists_of_bind h with ⟨n, p₂, _, h⟩
  by_cases hfree : n.isFree name.text
  · rw [if_pos hfree] at h
    cases h
    exact ⟨List.mem_cons_self, rfl, rfl⟩
  · rw [if_neg hfree] at h
    cases h

theorem fits_of_assignment (h : assignment t p = .ok r q) : r.Fits .assignment t.loc [] := by
  rcases exists_of_bind h with ⟨name, p₁, _, h⟩
  rcases exists_of_bind h with ⟨n, p₂, _, h⟩
  by_cases hvar : n.isVariable name.text
  · rw [if_pos hvar] at h
    cases h
    exact ⟨List.mem_cons_of_mem _ List.mem_cons_self, rfl, rfl⟩
  · rw [if_neg hvar] at h
    by_cases hfunction : n.isFunction name.text
    · rw [if_pos hfunction] at h
      cases h
    · rw [if_neg hfunction] at h
      exact absurd h unresolved_ne_ok

theorem fits_of_header (h : header t p = .ok r q) : r.Fits .function t.loc [] := by
  rcases exists_of_bind h with ⟨p₁, p₂, _, h⟩
  by_cases hscope : p₁.names.scope.isSome
  · rw [if_pos hscope] at h
    cases h
  · rw [if_neg hscope] at h
    rcases exists_of_bind h with ⟨name, p₃, _, h⟩
    rcases exists_of_bind h with ⟨n, p₄, _, h⟩
    by_cases hglobal : n.isGlobal name.text
    · rw [if_pos hglobal] at h
      cases h
    · rw [if_neg hglobal] at h
      rcases exists_of_bind h with ⟨_, p₅, _, h⟩
      rcases exists_of_bind h with ⟨paren, p₆, _, h⟩
      rcases exists_of_bind h with ⟨ps, p₇, _, h⟩
      rcases exists_of_bind h with ⟨m, p₈, _, h⟩
      rcases exists_of_bind h with ⟨_, p₉, _, h⟩
      cases h
      exact ⟨rfl, rfl⟩

/-- A token that starts a statement leads to one of the form it announces. -/
theorem fits_of_begin? {x : ParseM Progress} (hx : begin? t = some x) (h : x p = .ok r q) :
    r.Fits (.of t.kind) t.loc [] := by
  rcases t with ⟨kind, text, loc⟩
  cases kind with
  | integer n => cases hx; cases h; exact ⟨List.mem_cons_self, rfl, rfl⟩
  | boolean b => cases hx; cases h; exact ⟨List.mem_cons_self, rfl, rfl⟩
  | operator op => cases hx; cases h; exact ⟨List.mem_cons_self, rfl, rfl⟩
  | print => cases hx; cases h; exact ⟨List.mem_cons_self, rfl, rfl⟩
  | identifier => cases hx; exact fits_of_resolve h
  | bar => cases hx; exact fits_of_header h
  | keyword k =>
      cases k with
      | VARIABLE => cases hx; exact fits_of_declaration h
      | ASSIGN => cases hx; exact fits_of_assignment h
      | IF => cases hx; cases h; exact ⟨rfl, rfl⟩
      | BEGIN => cases hx; cases h; exact ⟨rfl, rfl⟩
      | ELSE | THEN | WHILE | REPEAT | VALUE | RETURN => cases hx
  | openParen | closeParen | endOfInput => cases hx

theorem fits_of_returnPart {name : String} {ps : List String} {body : List Stmt} {loc : Location}
    (h : returnPart name ps body loc p = .ok r q) : r.Fits .function loc body := by
  rcases exists_of_bind h with ⟨n, p₁, _, h⟩
  rcases exists_of_bind h with ⟨_, p₂, _, h⟩
  rcases exists_of_bind h with ⟨count, p₃, _, h⟩
  cases harity : count.arity? with
  | none => rw [harity] at h; cases h
  | some arity =>
      rw [harity] at h
      rcases exists_of_bind h with ⟨bar, p₄, _, h⟩
      cases h
      exact ⟨List.mem_cons_self, rfl, rfl⟩

/-- A token that closes a block leads on in the same form, with the block as a further part. -/
theorem fits_of_close? {c : Construct} {loc : Location} {block : List Stmt}
    {x : ParseM Progress} (hx : c.close? loc block t = some x) (h : x p = .ok r q) :
    r.Fits c.rule loc (c.earlier ++ block) := by
  unfold Construct.close? at hx
  split at hx
  · cases hx; cases h; exact ⟨List.mem_cons_self, rfl, rfl⟩
  · cases hx; cases h; exact ⟨rfl, rfl⟩
  · cases hx; cases h; exact ⟨List.mem_cons_self, rfl, rfl⟩
  · cases hx; cases h; exact ⟨rfl, rfl⟩
  · cases hx; cases h; exact ⟨List.mem_cons_self, rfl, rfl⟩
  · cases hx; exact fits_of_returnPart h
  · cases hx

end Actions

/-- The events of statements that have been read: each of them is announced, then come the
    events of its parts, and it is reported to be complete. -/
inductive Mirrors : List Event → List Stmt → Prop
  | nil : Mirrors [] []
  | cons {rule : Rule} {t : Token} {s : Stmt} {ss : List Stmt} {inner es : List Event}
      (hs : s.AnnouncedBy rule t) (hinner : Mirrors inner s.parts) (hes : Mirrors es ss) :
      Mirrors (.enter rule t :: (inner ++ .leave rule true :: es)) (s :: ss)

namespace Mirrors

variable {es es' : List Event} {ss ss' : List Stmt}

theorem append (h : Mirrors es ss) (h' : Mirrors es' ss') : Mirrors (es ++ es') (ss ++ ss') := by
  induction h with
  | nil => exact h'
  | cons hs hinner _ _ ih =>
      rw [List.cons_append, List.append_assoc, List.cons_append]
      exact .cons hs hinner ih

theorem single {rule : Rule} {t : Token} {s : Stmt} (hs : s.AnnouncedBy rule t)
    (h : Mirrors es s.parts) : Mirrors (.enter rule t :: (es ++ [.leave rule true])) [s] :=
  .cons hs h .nil

/-- After statements that have been read the same is open as before. -/
theorem openAfter_eq (h : Mirrors es ss) (rules : List Rule) :
    openAfter rules es = some rules := by
  induction h generalizing rules with
  | nil => rfl
  | cons _ _ _ ihinner ih =>
      rw [openAfter_enter, openAfter_append, ihinner, Option.bind_some, openAfter_leave, ih]

theorem not_failed (h : Mirrors es ss) : ∀ e ∈ es, e.failed = false := by
  induction h with
  | nil => exact fun e he => absurd he List.not_mem_nil
  | cons _ _ _ ihinner ih =>
      rw [List.forall_mem_cons, List.forall_mem_append, List.forall_mem_cons]
      exact ⟨rfl, ihinner, rfl, ih⟩

/-- The statements are announced in pre-order. -/
theorem entered (h : Mirrors es ss) :
    List.Forall₂ (fun a s => Stmt.AnnouncedBy s a.1 a.2) (es.filterMap Event.entered?)
      (preorder true ss) := by
  induction h with
  | nil => exact .nil
  | cons hs _ _ ihinner ih =>
      rw [preorder_cons, Stmt.enclosed_true]
      simp only [List.filterMap_cons, List.filterMap_append, Event.entered?]
      exact .cons hs (List.rel_append ihinner ih)

end Mirrors

/-- The events of the open constructs, innermost first: those of the statements before it, its
    announcement, and those of the blocks it has completed. -/
inductive Underway : List Event → List OpenConstruct → Prop
  | nil : Underway [] []
  | cons {o : OpenConstruct} {outer : List OpenConstruct} {es before inner : List Event}
      (houter : Underway es outer) (hbefore : Mirrors before o.before.reverse)
      (ho : o.construct.rule = o.rule) (hinner : Mirrors inner o.construct.earlier) :
      Underway (es ++ (before ++ .enter o.rule o.opener :: inner)) (o :: outer)

namespace Underway

variable {es : List Event} {enclosing : List OpenConstruct}

theorem openAfter_eq (h : Underway es enclosing) :
    openAfter [] es = some (enclosing.map OpenConstruct.rule) := by
  induction h with
  | nil => rfl
  | cons _ hbefore _ hinner ih =>
      rw [openAfter_append, ih, Option.bind_some, openAfter_append, hbefore.openAfter_eq,
        Option.bind_some, openAfter_enter, hinner.openAfter_eq, List.map_cons]

theorem not_failed (h : Underway es enclosing) : ∀ e ∈ es, e.failed = false := by
  induction h with
  | nil => exact fun e he => absurd he List.not_mem_nil
  | cons _ hbefore _ hinner ih =>
      rw [List.forall_mem_append, List.forall_mem_append, List.forall_mem_cons]
      exact ⟨ih, hbefore.not_failed, rfl, hinner.not_failed⟩

end Underway

/-- The events of a parse that fails: without a failure up to some point, and there all that
    is open fails, the innermost first. -/
def Interrupted (es : List Event) : Prop :=
  ∃ before rules, es = before ++ rules.map (fun rule => .leave rule false) ∧ rules ≠ [] ∧
    openAfter [] before = some rules ∧ ∀ e ∈ before, e.failed = false

theorem Interrupted.openAfter_eq {es : List Event} (h : Interrupted es) :
    openAfter [] es = some [] := by
  rcases h with ⟨before, rules, rfl, _, hopen, _⟩
  rw [openAfter_append, hopen, Option.bind_some, openAfter_leaves]

/-- The events of a parse with the given end. -/
def Accounts (es : List Event) : Except ParseError (List Stmt) → Prop
  | .ok ss => Mirrors es ss
  | .error _ => Interrupted es

theorem Accounts.openAfter_eq {es : List Event} {result : Except ParseError (List Stmt)}
    (h : Accounts es result) : openAfter [] es = some [] := by
  cases result with
  | ok ss => exact Mirrors.openAfter_eq h []
  | error e => exact Interrupted.openAfter_eq h

namespace Reading

/-- The events so far are those of the open constructs and those of the current block. -/
def Mirrored (r : Reading (List Event)) : Prop :=
  ∃ es inner, r.seen = es ++ inner ∧ Underway es r.enclosing ∧ Mirrors inner r.block.reverse

variable {r s : Reading (List Event)} {t : Token} {ts : List Token}

theorem mirrored_of_start (hr : r.Mirrored) (h : r.start record t ts = .more s) :
    s.Mirrored := by
  rcases hr with ⟨es, inner, hseen, hunder, hblock⟩
  unfold start at h
  simp only [hseen, record] at h
  split at h
  · cases h
  next x hx =>
      split at h
      next stmt q hp =>
          -- A complete statement has no parts, so its two events are in a row.
          cases h
          rcases fits_of_begin? hx hp with ⟨hrule, hloc, hparts⟩
          refine ⟨es, inner ++ [.enter (.of t.kind) t, .leave (.of t.kind) true], ?_, hunder, ?_⟩
          · simp only [List.append_assoc, List.cons_append, List.nil_append]
          · rw [List.reverse_cons]
            have hinner : Mirrors [] stmt.parts := hparts ▸ .nil
            exact hblock.append (.single ⟨hrule, hloc.symm⟩ hinner)
      next c q hp =>
          cases h
          rcases fits_of_begin? hx hp with ⟨hrule, hearlier⟩
          refine ⟨es ++ (inner ++ [.enter (.of t.kind) t]), [], ?_, ?_, .nil⟩
          · simp only [List.append_assoc, List.append_nil]
          · have hinner : Mirrors [] c.earlier := hearlier ▸ .nil
            exact .cons (o := ⟨c, t, r.block⟩) hunder hblock hrule hinner
      next => cases h

theorem mirrored_of_close {o : OpenConstruct} {outer : List OpenConstruct}
    {x : ParseM Progress} (hr : r.Mirrored) (henclosing : r.enclosing = o :: outer)
    (hx : o.construct.close? o.opener.loc r.block.reverse t = some x)
    (h : r.close record o outer x ts = .more s) : s.Mirrored := by
  rcases hr with ⟨es, inner, hseen, hunder, hblock⟩
  rw [henclosing] at hunder
  cases hunder with
  | @cons _ _ es before earlier houter hbefore ho hearlier =>
      have hparts := hearlier.append hblock
      unfold close at h
      simp only [hseen, record] at h
      split at h
      next hp =>
          -- The construct joins the statements before it, with all its blocks as parts.
          cases h
          rcases fits_of_close? hx hp with ⟨hrule, hloc, hparts'⟩
          rw [← hparts'] at hparts
          rw [ho] at hrule
          refine ⟨es, before ++ .enter o.rule o.opener :: (earlier ++ inner ++
            [.leave o.rule true]), ?_, houter, ?_⟩
          · simp only [List.append_assoc, List.cons_append]
          · rw [List.reverse_cons]
            exact hbefore.append (.single ⟨hrule, hloc.symm⟩ hparts)
      next c q hp =>
          cases h
          rcases fits_of_close? hx hp with ⟨hrule, hparts'⟩
          rw [← hparts'] at hparts
          refine ⟨es ++ (before ++ .enter o.rule o.opener :: (earlier ++ inner)), [], ?_, ?_, .nil⟩
          · simp only [List.append_assoc, List.cons_append, List.append_nil]
          · exact .cons (o := { o with construct := c }) houter hbefore (hrule.trans ho) hparts
      next => cases h

/-- A step keeps the shape of the events. -/
theorem mirrored_of_step (hr : r.Mirrored) (h : r.step record = .more s) : s.Mirrored := by
  unfold step at h
  split at h
  · cases h
  next => exact mirrored_of_start hr h
  · cases h
  next henclosing _ =>
      split at h
      next hx => exact mirrored_of_close hr henclosing hx h
      next => exact mirrored_of_start hr h

theorem Mirrored.openAfter_eq (hr : r.Mirrored) :
    openAfter [] r.seen = some (r.enclosing.map OpenConstruct.rule) := by
  rcases hr with ⟨es, inner, hseen, hunder, hblock⟩
  rw [hseen, openAfter_append, hunder.openAfter_eq, Option.bind_some, hblock.openAfter_eq]

theorem Mirrored.not_failed (hr : r.Mirrored) : ∀ e ∈ r.seen, e.failed = false := by
  rcases hr with ⟨es, inner, hseen, hunder, hblock⟩
  rw [hseen, List.forall_mem_append]
  exact ⟨hunder.not_failed, hblock.not_failed⟩

theorem abandon_record (e : ParseError) (p : Parser) (enclosing : List OpenConstruct)
    (seen : List Event) :
    abandon record e p enclosing seen = .done (.error e) p
      (seen ++ (enclosing.map OpenConstruct.rule).map fun rule => .leave rule false) := by
  have hfold : enclosing.foldl (fun s o => record s (.leave o.rule false)) seen =
      seen ++ (enclosing.map OpenConstruct.rule).map fun rule => .leave rule false := by
    induction enclosing generalizing seen with
    | nil => exact (List.append_nil _).symm
    | cons o outer ih =>
        rw [List.foldl_cons, ih, record, List.append_assoc]
        rfl
  rw [abandon, hfold]

/-- A failure inside of a construct is one of all open constructs. -/
theorem Mirrored.interrupted (hr : r.Mirrored) (h : r.enclosing ≠ []) :
    Interrupted (r.seen ++ (r.enclosing.map OpenConstruct.rule).map fun rule =>
      .leave rule false) :=
  ⟨r.seen, _, rfl, mt List.map_eq_nil_iff.1 h, hr.openAfter_eq, hr.not_failed⟩

/-- A failure at the start of a statement is one of this statement too. -/
theorem Mirrored.interrupted_enter (hr : r.Mirrored) (rule : Rule) (t : Token) :
    Interrupted (r.seen ++ [.enter rule t] ++ [.leave rule false] ++
      (r.enclosing.map OpenConstruct.rule).map fun rule => .leave rule false) := by
  refine ⟨r.seen ++ [.enter rule t], rule :: r.enclosing.map OpenConstruct.rule, ?_,
    List.cons_ne_nil _ _, ?_, ?_⟩
  · rw [List.append_assoc _ [_], List.singleton_append, List.map_cons]
  · rw [openAfter_append, hr.openAfter_eq, Option.bind_some, openAfter_enter, openAfter_nil]
  · rw [List.forall_mem_append, List.forall_mem_singleton]
    exact ⟨hr.not_failed, rfl⟩

variable {result : Except ParseError (List Stmt)} {p : Parser} {es : List Event}

theorem accounts_of_start (hr : r.Mirrored) (h : r.start record t ts = .done result p es) :
    Accounts es result := by
  unfold start at h
  simp only [abandon_record, record] at h
  split at h
  · cases h
    exact hr.interrupted_enter (.of t.kind) t
  · split at h
    · cases h
    · cases h
    · cases h
      exact hr.interrupted_enter (.of t.kind) t

theorem accounts_of_close {o : OpenConstruct} {outer : List OpenConstruct}
    {x : ParseM Progress} (hr : r.Mirrored) (henclosing : r.enclosing = o :: outer)
    (h : r.close record o outer x ts = .done result p es) : Accounts es result := by
  unfold close at h
  simp only [abandon_record] at h
  split at h
  · cases h
  · cases h
  · cases h
    exact hr.interrupted (henclosing ▸ List.cons_ne_nil o outer)

/-- The last step of a parse completes the account. -/
theorem accounts_of_step (hr : r.Mirrored) (h : r.step record = .done result p es) :
    Accounts es result := by
  unfold step at h
  split at h
  next henclosing _ =>
      -- Nothing is open, so the events are those of the outermost block.
      cases h
      rcases hr with ⟨es, inner, hseen, hunder, hblock⟩
      rw [henclosing] at hunder
      cases hunder
      rw [hseen]
      exact hblock
  next => exact accounts_of_start hr h
  next o outer henclosing _ =>
      rw [abandon_record] at h
      cases h
      exact hr.interrupted (henclosing ▸ List.cons_ne_nil o outer)
  next henclosing _ =>
      split at h
      next => exact accounts_of_close hr henclosing h
      next => exact accounts_of_start hr h

/-- The events of a parse account for its end. -/
theorem accounts_of_run (hr : r.Mirrored) : Accounts (r.run record).2.2 (r.run record).1 := by
  fun_induction run record r with
  | case1 r s hstep ih => exact ih (mirrored_of_step hr hstep)
  | case2 r result p es hstep => exact accounts_of_step hr hstep

end Reading

namespace Parser

variable {p : Parser}

/-- What can be said of the events of a call. -/
structure Traced (p : Parser) : Prop where
  /-- The events are well bracketed, and nothing stays open. -/
  bracketed : openAfter [] p.events = some []
  /-- An outline that starts with depth zero has the number of open statements as its depth up
      to every event. -/
  depth : ∀ o : Outline, o.depth = 0 → ∀ before after, p.events = before ++ after →
    ∃ rules, openAfter [] before = some rules ∧
      (before.foldl Outline.observe o).depth = rules.length
  /-- Whenever a statement is left there is something to subtract from. -/
  exact : ∀ o : Outline, o.depth = 0 → ∀ before rule ok after,
    p.events = before ++ .leave rule ok :: after → 0 < (before.foldl Outline.observe o).depth
  /-- A call that succeeds has reported no failure, and has announced the statements of its
      program in pre-order. -/
  ok : ∀ program, p.parse.1 = .ok program →
    (∀ e ∈ p.events, e.failed = false) ∧ Mirrors p.events program.statements ∧
      List.Forall₂ (fun a s => Stmt.AnnouncedBy s a.1 a.2) (p.events.filterMap Event.entered?)
        (preorder true program.statements)
  /-- A call that fails has reported failures at its end, at least one, and none before. -/
  error : ∀ e, p.parse.1 = .error e → ∃ before after, p.events = before ++ after ∧
    (∀ e ∈ before, e.failed = false) ∧ after ≠ [] ∧ ∀ e ∈ after, e.failed = true

/-- The events of a call account for the end of its steps. -/
theorem accounts_events (p : Parser) :
    Accounts p.events ((Reading.ofParser p).run unobserved).1 := by
  have hstart : Reading.Mirrored ⟨p, [], [], []⟩ := ⟨[], [], rfl, .nil, .nil⟩
  rw [run_unobserved, events_eq]
  exact Reading.accounts_of_run hstart

theorem traced (p : Parser) : p.Traced := by
  have haccounts := accounts_events p
  have hbracketed := haccounts.openAfter_eq
  refine ⟨hbracketed, ?_, ?_, ?_, ?_⟩
  · intro o ho before after hevents
    rw [hevents] at hbracketed
    exact Outline.exists_depth_foldl hbracketed ho
  · intro o ho before rule ok after hevents
    rw [hevents] at hbracketed
    exact Outline.depth_pos hbracketed ho
  · intro program h
    rw [parse_eq] at h
    cases hresult : ((Reading.ofParser p).run unobserved).1 with
    | error e => rw [hresult] at h; cases h
    | ok ss =>
        rw [hresult] at h haccounts
        cases h
        have hmirrors : Mirrors p.events ss := haccounts
        exact ⟨hmirrors.not_failed, hmirrors, hmirrors.entered⟩
  · intro e h
    rw [parse_eq] at h
    cases hresult : ((Reading.ofParser p).run unobserved).1 with
    | ok ss => rw [hresult] at h; cases h
    | error e =>
        rw [hresult] at haccounts
        rcases haccounts with ⟨before, rules, hevents, hrules, _, hbefore⟩
        refine ⟨before, _, hevents, hbefore, mt List.map_eq_nil_iff.1 hrules, ?_⟩
        intro e he
        rcases List.mem_map.1 he with ⟨rule, _, rfl⟩
        rfl

/-- An outline has depth zero after every call. -/
theorem depth_afterWith (p : Parser) (n : Nat) :
    (p.afterWith Outline.observe .empty n).2.depth = 0 := by
  induction n with
  | zero => rfl
  | succ n ih =>
      rw [(afterWith_eq Outline.observe p .empty n).2]
      exact Outline.depth_foldl (traced (p.after n)).bracketed ih

end Parser

/-- Any number of calls with an observer are those without one: they return the same, and leave
    the same parser. The observer learns of the events of each call, whatever the calls before
    have returned. These are well bracketed, mirror the program if the call succeeds, and end
    with nothing but failures if it fails; and an outline of them never subtracts from zero, and
    is back at depth zero after every call. -/
theorem traced_after {σ : Type} (observe : σ → Event → σ) (seen : σ) (p : Parser) (n : Nat) :
    (p.afterWith observe seen n).1 = p.after n ∧
      (p.afterWith observe seen n).1.parseWith observe (p.afterWith observe seen n).2 =
        ((p.after n).parse.1, p.after (n + 1),
          (p.after n).events.foldl observe (p.afterWith observe seen n).2) ∧
      (p.after n).Traced ∧ (p.afterWith Outline.observe .empty n).2.depth = 0 := by
  have hparser := (Parser.afterWith_eq observe p seen n).1
  refine ⟨hparser, ?_, Parser.traced _, Parser.depth_afterWith p n⟩
  rw [hparser, Parser.parseWith_eq]
  rfl

end StackLang
