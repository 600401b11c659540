import StackLang.Text.Word
import StackLang.Token.Shape

/-!
# Reading tokens

Each word of a text is one token, and the end of the text is one more. A word
that is no token stops the reading with an error. The reader then stands right
after that word, so asking it again goes on with the rest of the text; once the
end has been reached every further request gives the end alone.

Words are found before they are classified, which makes both the position after
a bad word and the termination of every request evident.

## Main definitions

* `LexError`: Why a word is no token, and where.
* `Token.ofWord`: The token that a word makes.
* `TokenReader`: The words still to be read and the end of the text.
* `TokenReader.read`: One request for all remaining tokens.
* `tokenize`: The tokens of a source text.
-/

namespace StackLang

/-- Why a word is no token. -/
inductive LexCause where
  /-- No token starts the way the word goes on with this character. -/
  | invalidCharacter (c : Char)
  /-- The word is an integer that the language cannot hold. -/
  | integerOutOfRange (literal : String)
deriving DecidableEq, Repr

/-- A word that is no token, and the location that is blamed. -/
structure LexError where
  cause : LexCause
  loc : Location
deriving DecidableEq, Repr

/-- The wording of a word that is no token. -/
def LexError.message (e : LexError) : String :=
  let place := e.loc.text
  match e.cause with
  | .invalidCharacter c => s!"Lexer error at {place}: invalid character '{c}'"
  | .integerOutOfRange literal =>
      s!"Lexer error at {place}: integer literal '{literal}' is out of range"

/-- The blame for a word without a shape: the first character after its longest
    initial part that has one. -/
def Word.invalid (w : Word) : LexError :=
  ⟨.invalidCharacter (w.letters.getD (recognized w.letters) w.first),
    w.loc.right (recognized w.letters)⟩

/-- The token that a word makes. -/
def Token.ofWord (w : Word) : Except LexError Token :=
  match shape? w.letters with
  | some (.fixed kind) => .ok ⟨kind, w.text, w.loc⟩
  | some (.integer n) =>
      match Integer.ofInt? n with
      | some value => .ok ⟨.integer value, w.text, w.loc⟩
      | none => .error ⟨.integerOutOfRange w.text, w.loc⟩
  | some .identifier => .ok ⟨.identifier, w.text, w.loc⟩
  | none => .error w.invalid

/-- The tokens of the given words followed by the end of the text, or the error
    of the first bad word; and the words after it. -/
def readWords (finish : Location) : List Word → Except LexError (List Token) × List Word
  | [] => (.ok [Token.endAt finish], [])
  | w :: ws =>
      match Token.ofWord w with
      -- The bad word counts as read.
      | .error e => (.error e, ws)
      | .ok t =>
          match readWords finish ws with
          | (.ok ts, rest) => (.ok (t :: ts), rest)
          | (.error e, rest) => (.error e, rest)

/-- The part of a text that has not been read yet. -/
structure TokenReader where
  rest : ScannedText
deriving DecidableEq, Repr

namespace TokenReader

/-- A reader at the start of a source text. -/
def ofSource (source : String) : TokenReader := ⟨wordsOf source⟩

/-- All tokens up to the end, or the error of the first bad word. The reader is
    left after what it has read. -/
def read (r : TokenReader) : Except LexError (List Token) × TokenReader :=
  match readWords r.rest.finish r.rest.words with
  | (result, ws) => (result, ⟨⟨ws, r.rest.finish⟩⟩)

end TokenReader

/-- The tokens of a source text, the last of which is its end. -/
def tokenize (source : String) : Except LexError (List Token) :=
  (TokenReader.ofSource source).read.1

end StackLang
