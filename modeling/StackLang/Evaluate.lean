import StackLang.Machine.Run
import StackLang.Parser

/-!
# From source text to outcome

The whole way in one go: a source text is compiled, and the program is run with
default limits and a transcript. Whatever fails on the way gives the error of
its stage, and an error of any stage has a location and a message.

## Main definitions

* `Error`: An error of any stage.
* `compile`: The program that a source text stands for.
* `Outcome`: What a finished run leaves.
* `runSource`: The outcome of a source text.
-/

namespace StackLang

/-- An error of any stage between a source text and the end of its run. -/
inductive Error where
  | lex (e : LexError)
  | parse (e : ParseError)
  | runtime (e : RuntimeError)
deriving DecidableEq, Repr

namespace Error

/-- The location that is blamed. -/
def loc : Error → Location
  | .lex e => e.loc
  | .parse e => e.loc
  | .runtime e => e.loc

/-- The wording, which is that of the stage. -/
def message : Error → String
  | .lex e => e.message
  | .parse e => e.message
  | .runtime e => e.message

end Error

/-- The program that a source text stands for. -/
def compile (source : String) : Except Error Program :=
  match Parser.ofSource source with
  | .error e => .error (.lex e)
  | .ok p =>
      match p.parse with
      | (.ok program, _) => .ok program
      | (.error e, _) => .error (.parse e)

/-- What a finished run leaves: the global stack from the bottom up, and the
    printed values in order. -/
structure Outcome where
  stack : List Value
  printed : List Value
deriving DecidableEq, Repr

/-- The outcome of a source text on an initial stack, from the bottom up; `none`
    if the run takes more than `fuel` steps. -/
def runSource (fuel : Nat) (source : String) (initial : List Integer) :
    Option (Except Error Outcome) :=
  match compile source with
  | .error e => some (.error e)
  | .ok program =>
      match (Machine.idle program defaultLimit Transcript.empty).run fuel initial with
      | none => none
      | some (.error e, _) => some (.error (.runtime e))
      | some (.ok stack, m) => some (.ok ⟨stack, m.sink.values⟩)

end StackLang
