import StackLang.Parser.Event

/-!
# Brackets

The events of a parse are like brackets: a statement is entered, and it is left after all that
has been entered since. `unfinished` keeps the forms of the statements that are open, and has
no answer to an event that leaves another statement than the innermost one. So events are well
bracketed if there is an answer to each of them, and nothing is open at the end.

An outline of the events counts what is open. It subtracts without looking, which is safe as
long as the events are well bracketed: `Outline.depth_foldl` says that the count is then the
number of open statements, and `Outline.depth_pos` that there is one to be left.

## Main definitions

* `Event.failed`: Whether an event reports a failure.
* `Event.entered?`: The statement that an event announces.
* `unfinished`: The statements that are open after an event.
* `openAfter`: The statements that are open after some events.

## Theorems

* `openAfter_append`: Events in turn.
* `openAfter_leaves`: All open statements can be left, the innermost first.
* `Outline.depth_foldl`: The depth of an outline is the number of open statements.
* `Outline.depth_pos`: It is positive when a statement is left.
-/

namespace StackLang

namespace Event

/-- Whether a statement has failed. -/
def failed : Event → Bool
  | .leave _ false => true
  | _ => false

/-- The form and the first token of the statement that is entered, if one is. -/
def entered? : Event → Option (Rule × Token)
  | .enter rule t => some (rule, t)
  | .leave _ _ => none

end Event

/-- The forms of the statements that are open after an event, innermost first. There is no
    answer if the event leaves another statement than the innermost one. -/
def unfinished : List Rule → Event → Option (List Rule)
  | rules, .enter rule _ => some (rule :: rules)
  | rule :: rules, .leave rule' _ => if rule' = rule then some rules else none
  | [], .leave _ _ => none

/-- The forms of the statements that are open after some events. -/
def openAfter (rules : List Rule) (es : List Event) : Option (List Rule) :=
  es.foldlM unfinished rules

variable {rules rules' : List Rule} {es es' : List Event}

@[simp]
theorem openAfter_nil (rules : List Rule) : openAfter rules [] = some rules := rfl

@[simp]
theorem openAfter_enter (rules : List Rule) (rule : Rule) (t : Token) (es : List Event) :
    openAfter rules (.enter rule t :: es) = openAfter (rule :: rules) es := rfl

@[simp]
theorem openAfter_leave (rules : List Rule) (rule : Rule) (ok : Bool) (es : List Event) :
    openAfter (rule :: rules) (.leave rule ok :: es) = openAfter rules es := by
  simp only [openAfter, List.foldlM_cons, unfinished, if_true, Option.bind_eq_bind,
    Option.bind_some]

theorem openAfter_append (rules : List Rule) (es es' : List Event) :
    openAfter rules (es ++ es') = (openAfter rules es).bind fun open' => openAfter open' es' :=
  List.foldlM_append

/-- All open statements can be left, the innermost first. -/
theorem openAfter_leaves (rules : List Rule) (ok : Bool) :
    openAfter rules (rules.map fun rule => .leave rule ok) = some [] := by
  induction rules with
  | nil => rfl
  | cons rule rules ih => rw [List.map_cons, openAfter_leave, ih]

/-- What is bracketed as a whole is so up to every point. -/
theorem exists_openAfter_of_append (h : openAfter rules (es ++ es') = some rules') :
    ∃ open', openAfter rules es = some open' ∧ openAfter open' es' = some rules' := by
  rw [openAfter_append] at h
  exact Option.bind_eq_some_iff.1 h

/-- Where a statement is left, one is open. -/
theorem ne_nil_of_openAfter_leave {rule : Rule} {ok : Bool}
    (h : openAfter rules (.leave rule ok :: es) = some rules') : rules ≠ [] := by
  rintro rfl
  cases h

namespace Outline

variable {o : Outline}

theorem depth_observe {e : Event} (h : unfinished rules e = some rules')
    (ho : o.depth = rules.length) : (o.observe e).depth = rules'.length := by
  cases e with
  | enter rule t =>
      cases h
      exact congrArg (· + 1) ho
  | leave rule ok =>
      cases rules with
      | nil => cases h
      | cons rule' rules =>
          by_cases hrule : rule = rule'
          · rw [unfinished, if_pos hrule] at h
            cases h
            rw [List.length_cons] at ho
            cases ok <;> exact Nat.sub_eq_of_eq_add ho
          · rw [unfinished, if_neg hrule] at h
            cases h

/-- The depth of an outline is the number of open statements. -/
theorem depth_foldl (h : openAfter rules es = some rules') (ho : o.depth = rules.length) :
    (es.foldl observe o).depth = rules'.length := by
  induction es generalizing rules o with
  | nil => cases h; exact ho
  | cons e es ih =>
      rcases Option.bind_eq_some_iff.1 h with ⟨open', he, hes⟩
      exact ih hes (depth_observe he ho)

/-- Up to every point of bracketed events the depth of an outline is the number of open
    statements. -/
theorem exists_depth_foldl (h : openAfter rules (es ++ es') = some rules')
    (ho : o.depth = rules.length) :
    ∃ open', openAfter rules es = some open' ∧ (es.foldl observe o).depth = open'.length := by
  rcases exists_openAfter_of_append h with ⟨open', hopen, _⟩
  exact ⟨open', hopen, depth_foldl hopen ho⟩

/-- When a statement is left the depth is positive, so the subtraction is exact. -/
theorem depth_pos {rule : Rule} {ok : Bool}
    (h : openAfter rules (es ++ .leave rule ok :: es') = some rules')
    (ho : o.depth = rules.length) : 0 < (es.foldl observe o).depth := by
  rcases exists_openAfter_of_append h with ⟨open', hopen, hleave⟩
  rw [depth_foldl hopen ho]
  exact List.length_pos_iff.2 (ne_nil_of_openAfter_leave hleave)

end Outline

end StackLang
