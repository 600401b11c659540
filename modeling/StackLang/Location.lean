/-!
# Locations

A place in a source text, as a person counts it: lines from one, and within a
line characters from one. A character is one Unicode scalar value whatever its
width, and only a line feed starts a new line, so the location of any character
is determined by the characters before it. `Location.after` is that rule for a
single character, and `Location.afterAll` folds it over a text.

## Main definitions

* `Location`: A line and a column.
* `Location.after`: The place right after a character.
* `Location.afterAll`: The place right after a whole text.
* `Location.text`: The wording used in messages.

## Theorems

* `Location.afterAll_append`: Walking over two texts in turn is walking over
  their concatenation.
* `Location.afterAll_of_not_mem`: Without a line feed only the column moves.
-/

namespace StackLang

/-- A line and a column, both counted from one. -/
structure Location where
  line : Nat
  column : Nat
deriving DecidableEq, Repr, Inhabited

namespace Location

/-- The first character of a text. -/
def start : Location := ⟨1, 1⟩

/-- The place right after `c`, when `c` stands at `l`. -/
def after (l : Location) (c : Char) : Location :=
  if c = '\n' then ⟨l.line + 1, 1⟩ else ⟨l.line, l.column + 1⟩

/-- The place right after the text `cs`, when its first character stands at `l`. -/
def afterAll (l : Location) (cs : List Char) : Location :=
  cs.foldl after l

/-- The place `n` columns further on the same line. -/
def right (l : Location) (n : Nat) : Location :=
  ⟨l.line, l.column + n⟩

/-- The wording of a location in messages. -/
def text (l : Location) : String :=
  s!"line {l.line}, column {l.column}"

@[simp]
theorem afterAll_nil (l : Location) : l.afterAll [] = l := rfl

@[simp]
theorem afterAll_cons (l : Location) (c : Char) (cs : List Char) :
    l.afterAll (c :: cs) = (l.after c).afterAll cs := rfl

theorem afterAll_append (l : Location) (cs ds : List Char) :
    l.afterAll (cs ++ ds) = (l.afterAll cs).afterAll ds := by
  simp only [afterAll, List.foldl_append]

theorem afterAll_of_not_mem (l : Location) (cs : List Char) (h : '\n' ∉ cs) :
    l.afterAll cs = l.right cs.length := by
  induction cs generalizing l with
  | nil => rfl
  | cons c cs ih =>
      -- The first character moves one column on, and the rest follows suit.
      have hc : ¬ c = '\n' := fun hc => h (hc ▸ List.mem_cons_self)
      have hcs : '\n' ∉ cs := fun hm => h (List.mem_cons_of_mem c hm)
      rw [afterAll_cons, after, if_neg hc, ih _ hcs]
      simp only [right, List.length_cons, Location.mk.injEq, true_and]
      omega

end Location

end StackLang
