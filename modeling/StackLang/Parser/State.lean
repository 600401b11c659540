import StackLang.Parser.Error
import StackLang.Parser.Names

/-!
# The parser's state and its basic actions

A parser stands in a sequence of tokens and knows the names declared so far. It
never reads past the end of its input: the token that marks the end is kept
apart from the tokens before it, so it can be looked at and blamed but not
consumed. A token sequence may lack such a mark, in which case one is supplied
where the last token stands, and it may contain one in the middle, in which case
what follows is never reached. Function headers are still collected from the
whole sequence.

The state outlives an error: a parser that has failed can be asked again, and
goes on where it stopped with the names it had. So an action is a function from
a state to a result *and* a state in either case, which is `EStateM`.

## Main definitions

* `Parser`: The tokens ahead, the end of input, and the names declared so far.
* `Parser.ofTokens`: A parser at the start of a token sequence.
* `headersOf`: The functions whose headers stand in a token sequence.
* `ParseM`: Actions that may fail and keep the state either way.
* `ParseM.advance`, `ParseM.expect`: Taking the next token.
* `ParseM.Forward`: An action only moves forward.

## Theorems

* `ParseM.Forward.bind`: Forward actions compose.
* `ParseM.forward_advance`, `ParseM.forward_expect`: Taking a token moves
  forward.
-/

namespace StackLang

/-- A position in a token sequence and the names declared so far. -/
structure Parser where
  /-- The tokens still to be read, up to the end of input. -/
  ahead : List Token
  /-- The token that marks the end of input. -/
  stop : Token
  names : Names
deriving DecidableEq, Repr

/-- The functions whose headers, a bar, a name and an opening parenthesis, stand
    anywhere in a token sequence. -/
def headersOf : List Token → List String
  | bar :: name :: paren :: ts =>
      if bar.kind = .bar ∧ name.kind = .identifier ∧ paren.kind = .openParen then
        name.text :: headersOf (name :: paren :: ts)
      else
        headersOf (name :: paren :: ts)
  | _ => []

/-- Whether a token marks the end of input. -/
def Token.isEnd (t : Token) : Bool := t.kind = .endOfInput

/-- Where the end of input is taken to be when a token sequence does not mark
    it. -/
def lastLocation (ts : List Token) : Location :=
  match ts.getLast? with
  | some t => t.loc
  | none => .start

namespace Parser

/-- A parser at the start of a token sequence. -/
def ofTokens (ts : List Token) : Parser where
  ahead := ts.takeWhile fun t => !t.isEnd
  stop := (ts.find? Token.isEnd).getD (Token.endAt (lastLocation ts))
  names := .ofHeaders (headersOf ts)

/-- Whether the next two tokens could go on a function header. -/
def headerAhead (p : Parser) : Bool :=
  match p.ahead with
  | name :: paren :: _ => name.kind = .identifier && paren.kind = .openParen
  | _ => false

end Parser

/-- Parser actions. The state is kept when an action fails. -/
abbrev ParseM := EStateM ParseError Parser

namespace ParseM

variable {α β : Type}

/-- Blame a token. -/
def fail (cause : ParseCause) (t : Token) : ParseM α :=
  fun p => .error ⟨cause, t⟩ p

/-- Take the next token. The end of input is given but not consumed. -/
def advance : ParseM Token := fun p =>
  match p.ahead with
  | [] => .ok p.stop p
  | t :: ts => .ok t { p with ahead := ts }

/-- Take the next token if it is of the given kind. -/
def expect (kind : TokenKind) (expected : Expected) : ParseM Token := fun p =>
  match p.ahead with
  | [] => .error ⟨.unexpected expected, p.stop⟩ p
  | t :: ts =>
      if t.kind = kind then .ok t { p with ahead := ts }
      else .error ⟨.unexpected expected, t⟩ p

/-- The names declared so far. -/
def names : ParseM Names := fun p => .ok p.names p

/-- Change the names declared so far. -/
def setNames (n : Names) : ParseM Unit := fun p => .ok () { p with names := n }

/-- An action moves forward: whether it succeeds or fails, what it leaves ahead
    is an end part of what it found, and the end of input stays. -/
def Forward (x : ParseM α) : Prop :=
  ∀ p, match x p with
    | .ok _ q => q.ahead <:+ p.ahead ∧ q.stop = p.stop
    | .error _ q => q.ahead <:+ p.ahead ∧ q.stop = p.stop

theorem forward_pure (a : α) : Forward (pure a) :=
  fun p => ⟨List.suffix_refl p.ahead, rfl⟩

theorem forward_fail (cause : ParseCause) (t : Token) : Forward (fail cause t : ParseM α) :=
  fun p => ⟨List.suffix_refl p.ahead, rfl⟩

theorem forward_names : Forward names :=
  fun p => ⟨List.suffix_refl p.ahead, rfl⟩

theorem forward_setNames (n : Names) : Forward (setNames n) :=
  fun p => ⟨List.suffix_refl p.ahead, rfl⟩

theorem forward_get : Forward (get : ParseM Parser) :=
  fun p => ⟨List.suffix_refl p.ahead, rfl⟩

theorem forward_advance : Forward advance := by
  intro p
  unfold advance
  cases h : p.ahead with
  | nil => exact ⟨h ▸ List.suffix_refl _, rfl⟩
  | cons t ts => exact ⟨List.suffix_cons t ts, rfl⟩

theorem forward_expect (kind : TokenKind) (expected : Expected) :
    Forward (expect kind expected) := by
  intro p
  unfold expect
  cases h : p.ahead with
  | nil => exact ⟨h ▸ List.suffix_refl _, rfl⟩
  | cons t ts =>
      by_cases hk : t.kind = kind
      · simp only [hk, if_true, and_true]
        exact List.suffix_cons t ts
      · simp only [hk, if_false, and_true]
        exact h ▸ List.suffix_refl _

theorem Forward.bind {x : ParseM α} {f : α → ParseM β} (hx : Forward x)
    (hf : ∀ a, Forward (f a)) : Forward (x >>= f) := by
  intro p
  have hxp := hx p
  simp only [Bind.bind, EStateM.bind]
  cases h : x p with
  | error e q => simpa only [h] using hxp
  | ok a q =>
      simp only [h] at hxp
      have hfq := hf a q
      simp only []
      cases hq : f a q with
      | ok b r =>
          simp only [hq] at hfq
          exact ⟨hfq.1.trans hxp.1, hfq.2.trans hxp.2⟩
      | error e r =>
          simp only [hq] at hfq
          exact ⟨hfq.1.trans hxp.1, hfq.2.trans hxp.2⟩

end ParseM

end StackLang
