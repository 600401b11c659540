import StackLang.Token

/-!
# Parse events

Reading a program can be watched. Each statement is announced when its first
token has been seen and reported once more when it is complete or has failed, so
the events of a program are nested like its statements. An observer is a
function from its own state and an event to its new state; it has no way to
influence the parser.

`Outline` is an observer that keeps an indented account of the events as text:
one line for each statement that is entered, and one for each that fails.

## Main definitions

* `Rule`: The forms of statements, told by the first token.
* `Event`: A statement is entered or left.
* `Outline`: The indented account.
* `Outline.observe`: One event more.
-/

namespace StackLang

/-- The forms of statements, as far as the first token tells them. -/
inductive Rule where
  | literal
  | identifier
  | declaration
  | assignment
  | conditional
  | loop
  | function
  | operator
  | print
  /-- No statement starts like this. -/
  | none
deriving DecidableEq, Repr

namespace Rule

/-- The form of a statement that starts with a token of the given kind. -/
def of : TokenKind → Rule
  | .integer _ => .literal
  | .boolean _ => .literal
  | .identifier => .identifier
  | .keyword .VARIABLE => .declaration
  | .keyword .ASSIGN => .assignment
  | .keyword .IF => .conditional
  | .keyword .BEGIN => .loop
  | .bar => .function
  | .operator _ => .operator
  | .print => .print
  | _ => .none

/-- The name of a form in an account of a parse. -/
def name : Rule → String
  | .literal => "literal"
  | .identifier => "identifier"
  | .declaration => "variable_declaration"
  | .assignment => "assignment"
  | .conditional => "conditional"
  | .loop => "loop"
  | .function => "function_declaration"
  | .operator => "operator"
  | .print => "macro_call"
  | .none => "statement"

end Rule

/-- A step in the reading of a program. -/
inductive Event where
  /-- A statement of this form starts with this token. -/
  | enter (rule : Rule) (token : Token)
  /-- A statement of this form is complete, or has failed. -/
  | leave (rule : Rule) (ok : Bool)
deriving DecidableEq, Repr

/-- An indented account of events: the text so far and the number of statements
    that are open. -/
structure Outline where
  text : String
  depth : Nat
deriving DecidableEq, Repr

namespace Outline

/-- The account of no events. -/
def empty : Outline := ⟨"", 0⟩

/-- The account with one more line, indented by two blanks per open
    statement. -/
def line (o : Outline) (depth : Nat) (content : String) : String :=
  o.text ++ "".pushn ' ' (2 * depth) ++ content ++ "\n"

/-- The account with one more event. -/
def observe (o : Outline) : Event → Outline
  | .enter rule token =>
      ⟨o.line o.depth s!"{rule.name}({token.describe}) at line {token.loc.line}", o.depth + 1⟩
  | .leave _ true => ⟨o.text, o.depth - 1⟩
  | .leave rule false => ⟨o.line (o.depth - 1) s!"{rule.name} failed", o.depth - 1⟩

end Outline

end StackLang
