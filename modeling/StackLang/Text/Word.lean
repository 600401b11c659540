import StackLang.Location
import StackLang.Text.Blank

/-!
# Words

A source text is words with gaps between them. A gap is made of blank
characters and comments, where a comment runs from a `#` up to the end of its
line without the line feed itself. A word is a longest run of characters that
are neither blank nor `#`; so a `#` ends a word even when nothing blank stands
before it.

The scanner walks once over the characters and keeps the location of the next
one. What it has to remember besides is only whether it stands in a gap, in a
comment or in a word, which is its `Mode`.

## Main definitions

* `Word`: A word with the location of its first character.
* `ScannedText`: The words of a text and the location of its end.
* `Mode`: What the scanner stands in.
* `scan`: The scanner.
* `wordsOf`: The words of a source text.
-/

namespace StackLang

/-- A word and the location of its first character. A word has at least one
    character, which is kept apart from the rest. -/
structure Word where
  first : Char
  rest : List Char
  loc : Location
deriving DecidableEq, Repr

namespace Word

/-- The characters of a word. -/
def letters (w : Word) : List Char := w.first :: w.rest

/-- The spelling of a word. -/
def text (w : Word) : String := String.ofList w.letters

end Word

/-- The words of a text, in order, and the location after its last character. -/
structure ScannedText where
  words : List Word
  finish : Location
deriving DecidableEq, Repr

/-- A text with one more word in front. -/
def ScannedText.cons (w : Word) (text : ScannedText) : ScannedText :=
  ⟨w :: text.words, text.finish⟩

/-- Whether a character can stand in a word. -/
def isLetter (c : Char) : Bool :=
  !isBlank c && c != '#'

/-- What the scanner stands in. In a word it remembers where the word began,
    its first character, and its other characters so far, latest first. -/
inductive Mode where
  | gap
  | comment
  | word (loc : Location) (first : Char) (latest : List Char)
deriving DecidableEq, Repr

/-- The words of the rest `cs` of a text, when its first character stands at
    `l`. A word in progress ends before the first character that is no letter,
    and that character decides what follows. -/
def scan : Mode → Location → List Char → ScannedText
  | .gap, l, [] => ⟨[], l⟩
  | .comment, l, [] => ⟨[], l⟩
  | .word loc first latest, l, [] => ⟨[⟨first, latest.reverse, loc⟩], l⟩
  -- The line feed that ends a comment is already part of the gap after it.
  | .comment, l, c :: cs => scan (if c = '\n' then .gap else .comment) (l.after c) cs
  | .gap, l, c :: cs =>
      if isBlank c then scan .gap (l.after c) cs
      else if c = '#' then scan .comment (l.after c) cs
      else scan (.word l c []) (l.after c) cs
  -- The character that ends a word is looked at again as part of the gap.
  | .word loc first latest, l, c :: cs =>
      if isBlank c then (scan .gap (l.after c) cs).cons ⟨first, latest.reverse, loc⟩
      else if c = '#' then (scan .comment (l.after c) cs).cons ⟨first, latest.reverse, loc⟩
      else scan (.word loc first (c :: latest)) (l.after c) cs

/-- The words of a source text. -/
def wordsOf (source : String) : ScannedText :=
  scan .gap .start source.toList

end StackLang
