import StackLang.Token

/-!
# Parse errors

Why a sequence of tokens is no program. Every error blames one token, which
gives the location and, where the trouble is a name, the name. What could have
stood there instead is one of a fixed set of expectations, kept as data; the
wording of an expectation and of an error is decided in one place each.

## Main definitions

* `Expected`: What the parser was looking for.
* `ParseCause`: Why a token is refused.
* `ParseError`: A cause and the token it blames.
* `ParseError.message`: The wording.
-/

namespace StackLang

/-- What the parser was looking for when it met a token it cannot use. -/
inductive Expected where
  | statement
  /-- A statement, at a place where a function may not be declared. -/
  | innerStatement
  /-- The end of a function body, at a bar that closes nothing yet. -/
  | returnBeforeBar
  | declaredName
  | assignedName
  | functionName
  | openParen
  | parameterName
  | parameterOrClose
  | elseOrThen
  | thenAlone
  | whileAlone
  | repeatAlone
  | returnAlone
  | closingBar
deriving DecidableEq, Repr

/-- The wording of an expectation. -/
def Expected.text : Expected → String
  | .statement => "statement"
  | .innerStatement => "statement (functions can only be declared at top level)"
  | .returnBeforeBar => "'RETURN' before the closing '|'"
  | .declaredName => "variable name after 'VARIABLE'"
  | .assignedName => "variable name after 'ASSIGN'"
  | .functionName => "function name after '|'"
  | .openParen => "'(' after function name"
  | .parameterName => "parameter name after 'VALUE'"
  | .parameterOrClose => "'VALUE' or ')'"
  | .elseOrThen => "'ELSE' or 'THEN'"
  | .thenAlone => "'THEN'"
  | .whileAlone => "'WHILE'"
  | .repeatAlone => "'REPEAT'"
  | .returnAlone => "'RETURN'"
  | .closingBar => "'|' after return arity"

/-- Why a token is refused. -/
inductive ParseCause where
  /-- Something else was expected. -/
  | unexpected (expected : Expected)
  /-- The token names a function where a variable is assigned. -/
  | assignedFunction
  /-- The token declares a name that is not free. -/
  | duplicateName
  /-- The token, in the body of a function, names nothing visible there. -/
  | outOfScope (function : String)
  /-- The token, outside functions, names nothing. -/
  | undefinedName
  /-- The token is no return arity. -/
  | badArity
deriving DecidableEq, Repr

/-- A cause and the token it blames. -/
structure ParseError where
  cause : ParseCause
  token : Token
deriving DecidableEq, Repr

namespace ParseError

/-- The location of the blamed token. -/
def loc (e : ParseError) : Location := e.token.loc

/-- What stands where something else was expected. -/
def found (e : ParseError) : String :=
  match e.cause with
  | .assignedFunction => "function '" ++ e.token.text ++ "'"
  | _ => e.token.describe

/-- The wording of a cause, without the location. -/
def detail (e : ParseError) : String :=
  match e.cause with
  | .unexpected expected => s!"unexpected {e.found}, expected {expected.text}"
  | .assignedFunction => s!"unexpected {e.found}, expected {Expected.assignedName.text}"
  | .duplicateName => s!"'{e.token.text}' is already declared"
  | .outOfScope function =>
      s!"'{e.token.text}' is not a parameter or local variable of function '{function}'"
  | .undefinedName => s!"undefined name '{e.token.text}'"
  | .badArity => s!"return arity must be 1, 2 or 3, found {e.found}"

/-- The wording of a parse error. -/
def message (e : ParseError) : String :=
  s!"Parse error at {e.loc.text}: {e.detail}"

end ParseError

end StackLang
