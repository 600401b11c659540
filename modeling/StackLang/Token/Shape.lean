import StackLang.Token

/-!
# Shapes of words

What a word is can be told from its characters. A fixed spelling comes first:
keywords, truth values, delimiters, operator symbols and the print statement.
Next are integers, decimal digits with an optional minus sign glued to them, and
then identifiers, which start with a letter or an underscore and go on with
letters, digits and underscores. Letters and digits are those of ASCII; every
other word has no shape.

Shapes are not closed under taking an initial part: `==` has one and `=` has
none. So a word without a shape is blamed at the end of its *longest* initial
part that has one, and `recognized` is the length of that part.

## Main definitions

* `spellings`: The fixed spellings and what they stand for.
* `Shape`: What a word is by its characters.
* `shape?`: The shape of a word, when it has one.
* `recognized`: The length of the longest proper initial part with a shape.
-/

namespace StackLang

/-- The fixed spellings, with the kind that each stands for. -/
def spellings : List (String × TokenKind) :=
  Keyword.all.map (fun k => (k.spelling, .keyword k)) ++
  [("True", .boolean true), ("False", .boolean false),
   ("|", .bar), ("(", .openParen), (")", .closeParen)] ++
  Operator.all.map (fun op => (op.symbol, .operator op)) ++
  [("__PRINT__", .print)]

/-- The kind that a fixed spelling stands for. -/
def fixedKind? (cs : List Char) : Option TokenKind :=
  spellings.lookup (String.ofList cs)

/-- Whether these are decimal digits, at least one of them. -/
def isDigits (cs : List Char) : Bool :=
  !cs.isEmpty && cs.all Char.isDigit

/-- The number that an integer word stands for, however large. -/
def integerValue? : List Char → Option Int
  | '-' :: ds => if isDigits ds then some (Integer.value true ds) else none
  | ds => if isDigits ds then some (Integer.value false ds) else none

/-- Whether these characters make an identifier. -/
def isIdentifier : List Char → Bool
  | [] => false
  | c :: cs => (c.isAlpha || c == '_') && cs.all fun d => d.isAlphanum || d == '_'

/-- What a word is by its characters alone. An integer may still be too large
    for the language. -/
inductive Shape where
  | fixed (kind : TokenKind)
  | integer (n : Int)
  | identifier
deriving DecidableEq, Repr

/-- The shape of a word. -/
def shape? (cs : List Char) : Option Shape :=
  match fixedKind? cs with
  | some kind => some (.fixed kind)
  | none =>
      match integerValue? cs with
      | some n => some (.integer n)
      | none => if isIdentifier cs then some .identifier else none

/-- The length of the longest initial part of `cs`, other than `cs` itself, that
    has a shape; zero when there is none. -/
def recognized (cs : List Char) : Nat :=
  -- Longer parts are tried first, so the first hit is the longest.
  ((List.range cs.length).reverse.find? fun n => (shape? (cs.take n)).isSome).getD 0

end StackLang
