import StackLang.Integer
import StackLang.Location
import StackLang.Operator

/-!
# Tokens

A token is a word of a program together with what it is. The kind is decided by
the spelling alone: most kinds have one fixed spelling, integers and
identifiers have many. The end of a text is a token too, so a reader of tokens
always has a next one to name in a message.

## Main definitions

* `Keyword`: The words that structure a program.
* `TokenKind`: What a token is.
* `Token`: A kind, the spelling and the location of the first character.
* `Token.describe`: How messages name a token.
-/

namespace StackLang

/-- The words that structure a program, each named as it is spelled. -/
inductive Keyword where
  | VARIABLE
  | ASSIGN
  | IF
  | ELSE
  | THEN
  | BEGIN
  | WHILE
  | REPEAT
  | VALUE
  | RETURN
deriving DecidableEq, Repr

namespace Keyword

/-- The spelling of a keyword. -/
def spelling : Keyword → String
  | .VARIABLE => "VARIABLE"
  | .ASSIGN => "ASSIGN"
  | .IF => "IF"
  | .ELSE => "ELSE"
  | .THEN => "THEN"
  | .BEGIN => "BEGIN"
  | .WHILE => "WHILE"
  | .REPEAT => "REPEAT"
  | .VALUE => "VALUE"
  | .RETURN => "RETURN"

/-- Every keyword once. -/
def all : List Keyword :=
  [.VARIABLE, .ASSIGN, .IF, .ELSE, .THEN, .BEGIN, .WHILE, .REPEAT, .VALUE, .RETURN]

theorem mem_all (k : Keyword) : k ∈ all := by
  cases k <;> decide

end Keyword

/-- What a token is. -/
inductive TokenKind where
  | integer (n : Integer)
  | boolean (b : Bool)
  | identifier
  | keyword (k : Keyword)
  /-- The bar that opens and closes a function. -/
  | bar
  | openParen
  | closeParen
  | operator (op : Operator)
  /-- The built-in statement that prints the top of the stack. -/
  | print
  | endOfInput
deriving DecidableEq, Repr

/-- How messages name a kind of token. -/
def TokenKind.describe : TokenKind → String
  | .integer _ => "integer literal"
  | .boolean _ => "boolean literal"
  | .identifier => "identifier"
  | .keyword k => "'" ++ k.spelling ++ "'"
  | .bar => "'|'"
  | .openParen => "'('"
  | .closeParen => "')'"
  | .operator op => "'" ++ op.symbol ++ "'"
  | .print => "macro '__PRINT__'"
  | .endOfInput => "end of input"

/-- A token of a program. -/
structure Token where
  kind : TokenKind
  text : String
  loc : Location
deriving DecidableEq, Repr

namespace Token

/-- The token that ends a text at `l`. -/
def endAt (l : Location) : Token := ⟨.endOfInput, "", l⟩

/-- How messages name a token: literals and identifiers with their spelling,
    all others by their kind. -/
def describe (t : Token) : String :=
  match t.kind with
  | .integer _ => t.kind.describe ++ " " ++ t.text
  | .boolean _ => t.kind.describe ++ " " ++ t.text
  | .identifier => t.kind.describe ++ " '" ++ t.text ++ "'"
  | kind => kind.describe

end Token

end StackLang
