import StackLang.Value

/-!
# Value stacks

A stack of values, kept with its topmost value first so that the operations of a
running program touch only the front of a list. Answers and statements about
stacks read from the bottom up, which is `Stack.toList`; each operation has an
equation that says what it does to that view.

Several values are taken off together or not at all: `Stack.popMany?` and
`Stack.popPair?` leave a stack that is too small as it was.

## Main definitions

* `Stack`: A stack of values.
* `Stack.toList`, `Stack.ofList`: The values from the bottom up.
* `Stack.push`, `Stack.extend`: Putting values on top.
* `Stack.pop?`, `Stack.popPair?`, `Stack.popMany?`: Taking values off.

## Theorems

* `Stack.toList_push`, `Stack.toList_extend`: What pushing does to the view.
* `Stack.pop?_eq_some_iff`: What a single pop takes.
* `Stack.popPair?_eq_some_iff`: What a pop of two operands takes.
* `Stack.popPair?_eq_none_iff`: When a pop of two operands is refused.
* `Stack.popMany?_eq_some_iff`: What a joint pop takes.
* `Stack.popMany?_eq_none_iff`: When a joint pop is refused.
-/

namespace StackLang

/-- A stack of values. -/
structure Stack where
  /-- The values, topmost first. -/
  topFirst : List Value
deriving DecidableEq, Repr

namespace Stack

/-- The stack without values. -/
def empty : Stack := ⟨[]⟩

/-- The values from the bottom up. -/
def toList (s : Stack) : List Value := s.topFirst.reverse

/-- The stack with the given values, from the bottom up. -/
def ofList (vs : List Value) : Stack := ⟨vs.reverse⟩

/-- The number of values. -/
def size (s : Stack) : Nat := s.topFirst.length

/-- Whether there are no values. -/
def isEmpty (s : Stack) : Bool := s.topFirst.isEmpty

/-- The topmost value. -/
def peek? (s : Stack) : Option Value := s.topFirst.head?

/-- The stack with one more value on top. -/
def push (s : Stack) (v : Value) : Stack := ⟨v :: s.topFirst⟩

/-- The stack with more values on top, the last of them topmost. -/
def extend (s : Stack) (vs : List Value) : Stack := ⟨vs.reverse ++ s.topFirst⟩

/-- The topmost value and the stack below it. -/
def pop? (s : Stack) : Option (Value × Stack) :=
  match s.topFirst with
  | [] => none
  | v :: vs => some (v, ⟨vs⟩)

/-- The two topmost values, the lower one first, and the stack below them. -/
def popPair? (s : Stack) : Option (Value × Value × Stack) :=
  match s.topFirst with
  | rhs :: lhs :: vs => some (lhs, rhs, ⟨vs⟩)
  | _ => none

/-- The `n` topmost values, from the bottom up, and the stack below them; `none`
    if there are fewer. -/
def popMany? (s : Stack) (n : Nat) : Option (List Value × Stack) :=
  -- Only the front is measured: the stack below may be large.
  if (s.topFirst.take n).length = n then
    some ((s.topFirst.take n).reverse, ⟨s.topFirst.drop n⟩)
  else none

@[simp]
theorem toList_empty : empty.toList = [] := rfl

@[simp]
theorem toList_ofList (vs : List Value) : (ofList vs).toList = vs :=
  List.reverse_reverse vs

@[simp]
theorem toList_push (s : Stack) (v : Value) : (s.push v).toList = s.toList ++ [v] :=
  List.reverse_cons

@[simp]
theorem toList_extend (s : Stack) (vs : List Value) :
    (s.extend vs).toList = s.toList ++ vs := by
  simp only [extend, toList, List.reverse_append, List.reverse_reverse]

@[simp]
theorem length_toList (s : Stack) : s.toList.length = s.size :=
  List.length_reverse

theorem toList_inj {s t : Stack} : s.toList = t.toList ↔ s = t := by
  constructor
  · intro h
    cases s
    cases t
    simpa only [toList, List.reverse_inj, Stack.mk.injEq] using h
  · exact congrArg toList

theorem pop?_eq_some_iff {s t : Stack} {v : Value} :
    s.pop? = some (v, t) ↔ s.toList = t.toList ++ [v] := by
  rw [← toList_push, toList_inj]
  obtain ⟨vs⟩ := s
  obtain ⟨ws⟩ := t
  cases vs with
  | nil => simp [pop?, push]
  | cons w us => simp [pop?, push]

theorem popPair?_eq_some_iff {s t : Stack} {lhs rhs : Value} :
    s.popPair? = some (lhs, rhs, t) ↔ s.toList = t.toList ++ [lhs, rhs] := by
  have hview : t.toList ++ [lhs, rhs] = ((t.push lhs).push rhs).toList := by
    simp only [toList_push, List.append_assoc, List.cons_append, List.nil_append]
  rw [hview, toList_inj]
  obtain ⟨vs⟩ := s
  obtain ⟨ws⟩ := t
  match vs with
  | [] => simp [popPair?, push]
  | [v] => simp [popPair?, push]
  | v :: w :: us => simp only [popPair?, push, Option.some.injEq, Prod.mk.injEq, Stack.mk.injEq,
      List.cons.injEq]; grind

theorem popPair?_eq_none_iff {s : Stack} : s.popPair? = none ↔ s.size < 2 := by
  obtain ⟨vs⟩ := s
  match vs with
  | [] => simp [popPair?, size]
  | [v] => simp [popPair?, size]
  | v :: w :: us => simp [popPair?, size]

theorem popMany?_eq_some_iff {s t : Stack} {n : Nat} {vs : List Value} :
    s.popMany? n = some (vs, t) ↔ vs.length = n ∧ s.toList = t.toList ++ vs := by
  obtain ⟨us⟩ := s
  obtain ⟨ws⟩ := t
  unfold popMany?
  constructor
  · intro h
    split at h
    next hn =>
      cases h
      refine ⟨by simpa using hn, ?_⟩
      simp only [toList, ← List.reverse_append, List.take_append_drop]
    next => cases h
  · rintro ⟨hn, h⟩
    -- Read from the top, the popped values come first and backwards.
    have hus : us = vs.reverse ++ ws := by
      have := congrArg List.reverse h
      simpa [toList] using this
    subst hus
    have htake : (vs.reverse ++ ws).take n = vs.reverse := by
      rw [← hn, ← List.length_reverse, List.take_left]
    have hdrop : (vs.reverse ++ ws).drop n = ws := by
      rw [← hn, ← List.length_reverse, List.drop_left]
    simp only [htake, hdrop, List.length_reverse, hn, if_true, List.reverse_reverse]

theorem popMany?_eq_none_iff {s : Stack} {n : Nat} :
    s.popMany? n = none ↔ s.size < n := by
  simp only [popMany?, ite_eq_right_iff, reduceCtorEq, imp_false, List.length_take, size]
  omega

end Stack

end StackLang
