/-!
# Integers

The numbers of the language are 64-bit signed integers. They never wrap: an
operation either has an exact result that fits, or it is refused. The bridge is
`Integer.ofInt?`, which takes an unbounded integer to the word with the same
value. It converts and then reads the word back, so it succeeds exactly when
nothing was lost, and `Integer.ofInt?_eq_some_iff` says so without mentioning a
bound.

Their written form is decimal: an optional minus sign and digits, without
leading zeros. `Integer.value` is the other direction, the number that a run of
digits stands for; leading zeros are allowed there.

## Main definitions

* `Integer`: The 64-bit signed integers.
* `Integer.ofInt?`: The word with a given value, when there is one.
* `Integer.digits`: The decimal form of a word.
* `Integer.value`: The number written by a sign and digits.

## Theorems

* `Integer.ofInt?_eq_some_iff`: A word is found exactly when it has the value.
* `Integer.ofInt?_toInt`: Every word is found from its own value.
-/

namespace StackLang

/-- The language's integers: 64-bit, signed. -/
abbrev Integer := Int64

namespace Integer

/-- The word whose value is `n`, or `none` when no word has that value. -/
def ofInt? (n : Int) : Option Integer :=
  if (Int64.ofInt n).toInt = n then some (Int64.ofInt n) else none

theorem ofInt?_eq_some_iff {n : Int} {w : Integer} :
    ofInt? n = some w ↔ w.toInt = n := by
  unfold ofInt?
  constructor
  · intro h
    split at h
    next hn => exact (Option.some.inj h) ▸ hn
    next => exact absurd h (by simp)
  · intro h
    subst h
    -- Converting a word to its value and back gives the same word.
    simp only [Int64.ofInt_toInt, if_true]

theorem ofInt?_toInt (w : Integer) : ofInt? w.toInt = some w :=
  ofInt?_eq_some_iff.2 rfl

/-- The decimal digits of an integer, with a minus sign in front when it is
    negative. -/
def digits (n : Int) : List Char :=
  if n < 0 then '-' :: Nat.toDigits 10 n.natAbs else Nat.toDigits 10 n.natAbs

/-- The decimal form of a word. -/
def text (w : Integer) : String :=
  String.ofList (digits w.toInt)

/-- The number that a sign and a run of decimal digits stand for. -/
def value (negative : Bool) (ds : List Char) : Int :=
  if negative then -(Nat.ofDigitChars 10 ds 0 : Int) else Nat.ofDigitChars 10 ds 0

end Integer

end StackLang
