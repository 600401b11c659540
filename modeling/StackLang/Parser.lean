import StackLang.Parser.Construct
import StackLang.Parser.Event
import StackLang.Token.Reader

/-!
# Parsing

A program is read from left to right in one pass. The constructs that have been
opened and not yet closed are kept on an explicit stack, so reading is a loop
over single steps and nesting costs no depth. One step either completes a
statement of the current block, opens or goes on with a construct, closes one, or
ends the parse. Every step but the last consumes a token, which is why the loop
ends.

An error ends every open construct: the observer is told that each has failed,
the innermost first. The parser itself stays where the error was found.

## Main definitions

* `OpenConstruct`: A construct on the stack.
* `Reading`: Parser, stack, current block and the observer's state.
* `Reading.step`: One step.
* `Reading.run`: Steps until the parse ends.
* `Parser.parseWith`: A parse with an observer.
* `Parser.parse`: A parse.

## Theorems

* `Reading.step_lt`: A step that does not end the parse consumes a token.
-/

namespace StackLang

/-- A construct that has been opened and not yet closed. -/
structure OpenConstruct where
  /-- What has been read of it. -/
  construct : Construct
  /-- Its first token. -/
  opener : Token
  /-- The statements before it in the block around it, latest first. -/
  before : List Stmt
deriving Repr

namespace OpenConstruct

/-- The form of the statement that is being read. -/
def rule (o : OpenConstruct) : Rule := .of o.opener.kind

end OpenConstruct

variable {σ : Type}

/-- The state of a parse that has not ended. -/
structure Reading (σ : Type) where
  parser : Parser
  /-- The open constructs, innermost first. -/
  enclosing : List OpenConstruct
  /-- The statements of the current block so far, latest first. -/
  block : List Stmt
  /-- What the observer has made of the events so far. -/
  seen : σ

/-- What a step leads to. -/
inductive ReadingStep (σ : Type) where
  | more (r : Reading σ)
  | done (result : Except ParseError (List Stmt)) (parser : Parser) (seen : σ)

namespace Reading

/-- The end of a parse by an error: all open constructs fail. -/
def abandon (observe : σ → Event → σ) (e : ParseError) (p : Parser)
    (enclosing : List OpenConstruct) (seen : σ) : ReadingStep σ :=
  .done (.error e) p (enclosing.foldl (fun s o => observe s (.leave o.rule false)) seen)

/-- The step at a token that starts a statement, or should. -/
def start (observe : σ → Event → σ) (r : Reading σ) (t : Token) (ts : List Token) :
    ReadingStep σ :=
  let rule := Rule.of t.kind
  let seen := observe r.seen (.enter rule t)
  match begin? t with
  | none =>
      abandon observe ⟨.unexpected .statement, t⟩ r.parser r.enclosing
        (observe seen (.leave rule false))
  | some x =>
      match x { r.parser with ahead := ts } with
      | .ok (.statement s) p =>
          .more ⟨p, r.enclosing, s :: r.block, observe seen (.leave rule true)⟩
      | .ok (.block c) p => .more ⟨p, ⟨c, t, r.block⟩ :: r.enclosing, [], seen⟩
      | .error e p => abandon observe e p r.enclosing (observe seen (.leave rule false))

/-- The step at a token that closes the current block of the construct `o`. -/
def close (observe : σ → Event → σ) (r : Reading σ) (o : OpenConstruct)
    (outer : List OpenConstruct) (x : ParseM Progress) (ts : List Token) : ReadingStep σ :=
  match x { r.parser with ahead := ts } with
  | .ok (.statement s) p =>
      .more ⟨p, outer, s :: o.before, observe r.seen (.leave o.rule true)⟩
  | .ok (.block c) p => .more ⟨p, { o with construct := c } :: outer, [], r.seen⟩
  | .error e p => abandon observe e p r.enclosing r.seen

/-- One step of a parse. At the end of input a parse succeeds if no construct is
    open. -/
def step (observe : σ → Event → σ) (r : Reading σ) : ReadingStep σ :=
  match r.enclosing, r.parser.ahead with
  | [], [] => .done (.ok r.block.reverse) r.parser r.seen
  | [], t :: ts => r.start observe t ts
  | o :: _, [] =>
      abandon observe ⟨.unexpected o.construct.expected, r.parser.stop⟩ r.parser r.enclosing
        r.seen
  -- A token that closes the block is not tried as the start of a statement.
  | o :: outer, t :: ts =>
      match o.construct.close? o.opener.loc r.block.reverse t with
      | some x => r.close observe o outer x ts
      | none => r.start observe t ts

theorem start_le {observe : σ → Event → σ} {r s : Reading σ} {t : Token} {ts : List Token}
    (h : r.start observe t ts = .more s) : s.parser.ahead.length ≤ ts.length := by
  unfold start at h
  simp only [] at h
  split at h
  · cases h
  next x hx =>
      have hf := begin?_forward hx { r.parser with ahead := ts }
      split at h
      next hp => cases h; simp only [hp] at hf; exact hf.1.length_le
      next hp => cases h; simp only [hp] at hf; exact hf.1.length_le
      next => cases h

theorem close_le {observe : σ → Event → σ} {r s : Reading σ} {o : OpenConstruct}
    {outer : List OpenConstruct} {x : ParseM Progress} {ts : List Token}
    (hx : ParseM.Forward x) (h : r.close observe o outer x ts = .more s) :
    s.parser.ahead.length ≤ ts.length := by
  have hf := hx { r.parser with ahead := ts }
  unfold close at h
  split at h
  next hp => cases h; simp only [hp] at hf; exact hf.1.length_le
  next hp => cases h; simp only [hp] at hf; exact hf.1.length_le
  next => cases h

theorem step_lt {observe : σ → Event → σ} {r s : Reading σ}
    (h : r.step observe = .more s) : s.parser.ahead.length < r.parser.ahead.length := by
  unfold step at h
  split at h
  · cases h
  next hts => rw [hts]; exact Nat.lt_succ_of_le (start_le h)
  · cases h
  next hts =>
      rw [hts]
      split at h
      next hx => exact Nat.lt_succ_of_le (close_le (Construct.close?_forward hx) h)
      next => exact Nat.lt_succ_of_le (start_le h)

/-- Steps until the parse ends. -/
def run (observe : σ → Event → σ) (r : Reading σ) :
    Except ParseError (List Stmt) × Parser × σ :=
  match _h : r.step observe with
  | .more s => run observe s
  | .done result p seen => (result, p, seen)
termination_by r.parser.ahead.length
decreasing_by exact step_lt _h

end Reading

namespace Parser

/-- Read the rest of the input as a program, with an observer. A finished program
    takes the variables that have been declared outside functions since the last
    one. -/
def parseWith (observe : σ → Event → σ) (p : Parser) (seen : σ) :
    Except ParseError Program × Parser × σ :=
  match Reading.run observe ⟨p, [], [], seen⟩ with
  | (.error e, q, s) => (.error e, q, s)
  | (.ok statements, q, s) =>
      (.ok ⟨statements, q.names.pending⟩, { q with names := q.names.release }, s)

/-- Read the rest of the input as a program. -/
def parse (p : Parser) : Except ParseError Program × Parser :=
  match p.parseWith (fun _ _ => ()) () with
  | (result, q, _) => (result, q)

/-- A parser at the start of a source text. -/
def ofSource (source : String) : Except LexError Parser :=
  match tokenize source with
  | .ok ts => .ok (.ofTokens ts)
  | .error e => .error e

end Parser

end StackLang
