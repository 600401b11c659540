/-!
# Blank characters

The characters that separate words are those with the Unicode property
`White_Space`. The property has twenty-five members, listed here as ten ranges
of code points in increasing order.

## Main definitions

* `blankRanges`: The ranges of the property, both ends included.
* `isBlank`: Whether a character separates words.

## Theorems

* `isBlank_of_isWhitespace`: Every character that core calls whitespace is
  blank.
-/

namespace StackLang

/-- The code points with the property `White_Space`, as ranges that include
    both ends. -/
def blankRanges : List (Nat × Nat) :=
  [(0x0009, 0x000D), (0x0020, 0x0020), (0x0085, 0x0085), (0x00A0, 0x00A0),
   (0x1680, 0x1680), (0x2000, 0x200A), (0x2028, 0x2029), (0x202F, 0x202F),
   (0x205F, 0x205F), (0x3000, 0x3000)]

/-- Whether a character is blank. -/
def isBlank (c : Char) : Bool :=
  blankRanges.any fun range => range.1 ≤ c.toNat && c.toNat ≤ range.2

theorem isBlank_of_isWhitespace (c : Char) (h : c.isWhitespace = true) : isBlank c = true := by
  simp only [Char.isWhitespace, Bool.or_eq_true, decide_eq_true_eq] at h
  -- Core's class has four members: blank, tab, carriage return and line feed.
  rcases h with ((rfl | rfl) | rfl) | rfl <;> decide

end StackLang
