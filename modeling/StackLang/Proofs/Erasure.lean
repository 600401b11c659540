import StackLang.Proofs.Acceptance
import StackLang.Proofs.Layout

/-!
# Programs without locations

Reading a text pays no attention to places.

Erasing puts the start of the text in the place of every location, in tokens, errors and
programs alike. No action of the parser compares a location with anything; it only passes
on the one of a token. So an action on erased tokens does what it does on the tokens
themselves, erased, whether it succeeds or fails: `ParseM.Erases`. That is shown once for
each action, and then for the step of a parse and for the whole of it.

Words have places too, and a token takes that of its word. Two texts of the same words
therefore have the same tokens after erasure, and what they compile to is the same after
erasure: `compile_of_spells`.

## Main definitions

* `Token.erase`, `Error.erase`, `Program.erase`: Tokens, errors and programs without
  locations.
* `ParseM.Erases`: An action commutes with erasure.
* `Reading.erase`: A parse without locations.

## Theorems

* `begin?_erases`, `Construct.close?_erases`: Starting a statement and closing a block
  commute with erasure.
* `Reading.step_erase`, `Reading.run_erase`: So do a step and a whole parse.
* `tokenize_of_spells`: Texts of the same words have the same tokens.
* `compile_of_spells`: Texts of the same words compile to the same.
-/

namespace StackLang

/-- The token without its location. -/
def Token.erase (t : Token) : Token := { t with loc := .start }

@[simp]
theorem Token.kind_erase (t : Token) : t.erase.kind = t.kind := rfl

@[simp]
theorem Token.text_erase (t : Token) : t.erase.text = t.text := rfl

/-- The lexical error without the place it is about. -/
def LexError.erase (e : LexError) : LexError := { e with loc := .start }

/-- The parse error with the blamed token erased, which alone has a location. -/
def ParseError.erase (e : ParseError) : ParseError := { e with token := e.token.erase }

/-- The runtime error without the location of the failing statement. -/
def RuntimeError.erase (e : RuntimeError) : RuntimeError := { e with loc := .start }

/-- The error without its location, and without that of the token it blames. -/
def Error.erase : Error → Error
  | .lex e => .lex e.erase
  | .parse e => .parse e.erase
  | .runtime e => .runtime e.erase

/-- The signature without the location of the opening bar. -/
def Signature.erase (s : Signature) : Signature := { s with loc := .start }

namespace Stmt

mutual

/-- The statement without its location and those of the statements in it. -/
def erase : Stmt → Stmt
  | .literal v _ => .literal v .start
  | .operator op _ => .operator op .start
  | .declare x _ => .declare x .start
  | .read x _ => .read x .start
  | .assign x _ => .assign x .start
  | .ifThen block _ => .ifThen (eraseAll block) .start
  | .ifElse block other _ => .ifElse (eraseAll block) (eraseAll other) .start
  | .loop condition body _ => .loop (eraseAll condition) (eraseAll body) .start
  | .function signature body => .function signature.erase (eraseAll body)
  | .call name _ => .call name .start
  | .print _ => .print .start

/-- The block without locations. -/
def eraseAll : List Stmt → List Stmt
  | [] => []
  | s :: ss => erase s :: eraseAll ss

end

theorem eraseAll_eq_map (ss : List Stmt) : eraseAll ss = ss.map erase := by
  induction ss with
  | nil => rfl
  | cons s ss ih => rw [eraseAll, ih, List.map_cons]

theorem eraseAll_reverse (ss : List Stmt) : (eraseAll ss).reverse = eraseAll ss.reverse := by
  rw [eraseAll_eq_map, eraseAll_eq_map, List.map_reverse]

end Stmt

/-- The function without its location and those of its body. -/
def Function.erase (f : Function) : Function := ⟨f.toSignature.erase, Stmt.eraseAll f.body⟩

@[simp]
theorem Function.parameters_erase (f : Function) : f.erase.parameters = f.parameters := rfl

/-- The program without locations. -/
def Program.erase (p : Program) : Program := ⟨Stmt.eraseAll p.statements, p.globals⟩

theorem Program.functions_erase (p : Program) :
    p.erase.functions = p.functions.map Function.erase := by
  rw [functions, functions, erase, Stmt.eraseAll_eq_map, List.filterMap_map, List.map_filterMap]
  congr 1
  funext s
  cases s <;> rfl

/-- The construct with the blocks it has already collected erased. -/
def Construct.erase : Construct → Construct
  | .branch => .branch
  | .alternative block => .alternative (Stmt.eraseAll block)
  | .condition => .condition
  | .body test => .body (Stmt.eraseAll test)
  | .function name ps => .function name ps

theorem Construct.expected_erase (c : Construct) : c.erase.expected = c.expected := by
  cases c <;> rfl

/-- What an action has read, a statement or the start of a block, without locations. -/
def Progress.erase : Progress → Progress
  | .statement s => .statement s.erase
  | .block c => .block c.erase

/-- The parser without the locations of its tokens. -/
def Parser.erase (p : Parser) : Parser := ⟨p.ahead.map Token.erase, p.stop.erase, p.names⟩

namespace ParseM

variable {α β : Type}

/-- A result without locations, where `f` erases the value. -/
def eraseResult (f : α → α) :
    EStateM.Result ParseError Parser α → EStateM.Result ParseError Parser α
  | .ok v p => .ok (f v) p.erase
  | .error e p => .error e.erase p.erase

/-- The action `y` does on an erased parser what `x` does on the parser itself, erased. -/
def Erases (f : α → α) (x y : ParseM α) : Prop :=
  ∀ p, y p.erase = eraseResult f (x p)

theorem Erases.bind {f : α → α} {g : β → β} {x y : ParseM α} {k l : α → ParseM β}
    (hx : Erases f x y) (hk : ∀ v, Erases g (k v) (l (f v))) : Erases g (x >>= k) (y >>= l) := by
  intro p
  simp only [Bind.bind, EStateM.bind]
  rw [hx p]
  cases x p with
  | ok v q => exact hk v q
  | error e q => rfl

/-- An action is run after its first token has been taken. -/
theorem Erases.after {f : α → α} {x y : ParseM α} (h : Erases f x y) (p : Parser)
    (ts : List Token) :
    y { p.erase with ahead := ts.map Token.erase } = eraseResult f (x { p with ahead := ts }) :=
  h { p with ahead := ts }

theorem Erases.ite {f : α → α} {c : Prop} [Decidable c] {x₁ x₂ y₁ y₂ : ParseM α}
    (h₁ : Erases f x₁ y₁) (h₂ : Erases f x₂ y₂) :
    Erases f (if c then x₁ else x₂) (if c then y₁ else y₂) := by
  split
  · exact h₁
  · exact h₂

theorem erases_pure (f : α → α) (v : α) : Erases f (pure v) (pure (f v)) := fun _ => rfl

theorem erases_fail (f : α → α) (cause : ParseCause) (t : Token) :
    Erases f (fail cause t) (fail cause t.erase) := fun _ => rfl

theorem erases_names : Erases id names names := fun _ => rfl

theorem erases_setNames (n : Names) : Erases id (setNames n) (setNames n) := fun _ => rfl

theorem erases_get : Erases Parser.erase get get := fun _ => rfl

theorem erases_advance : Erases Token.erase advance advance := by
  intro p
  rcases p with ⟨_ | ⟨t, ts⟩, stop, n⟩ <;> rfl

theorem erases_expect (kind : TokenKind) (expected : Expected) :
    Erases Token.erase (expect kind expected) (expect kind expected) := by
  intro p
  rcases p with ⟨_ | ⟨t, ts⟩, stop, n⟩
  · rfl
  · -- Only the kind of the token is looked at.
    simp only [expect, Parser.erase, List.map_cons, Token.erase]
    split <;> rfl

end ParseM

open ParseM

theorem erases_acceptAssign : Erases id acceptAssign acceptAssign := by
  intro p
  rcases p with ⟨_ | ⟨t, ts⟩, stop, n⟩
  · rfl
  · simp only [acceptAssign, Parser.erase, List.map_cons, Token.erase]
    split <;> rfl

section Actions

variable (t : Token)

theorem erases_unresolved (n : Names) :
    Erases Progress.erase (unresolved n t) (unresolved n t.erase) := by
  unfold unresolved
  split <;> exact erases_fail _ _ t

theorem erases_resolve : Erases Progress.erase (resolve t) (resolve t.erase) := by
  refine erases_names.bind fun n => .ite ?_ (.ite (erases_pure _ _) (erases_unresolved t n))
  refine erases_acceptAssign.bind fun assigned => ?_
  cases assigned <;> exact erases_pure Progress.erase _

theorem erases_declaration : Erases Progress.erase (declaration t) (declaration t.erase) :=
  (erases_expect _ _).bind fun name => erases_names.bind fun _ =>
    .ite ((erases_setNames _).bind fun _ => erases_pure _ _) (erases_fail _ _ name)

theorem erases_assignment : Erases Progress.erase (assignment t) (assignment t.erase) :=
  (erases_expect _ _).bind fun name => erases_names.bind fun n =>
    .ite (erases_pure _ _) (.ite (erases_fail _ _ name) (erases_unresolved name n))

theorem parametersFrom_erase (n : Names) (stop : Token) (seen : List String) (ts : List Token) :
    parametersFrom n stop.erase seen (ts.map Token.erase) =
      ((parametersFrom n stop seen ts).1.mapError ParseError.erase,
        (parametersFrom n stop seen ts).2.map Token.erase) := by
  fun_induction parametersFrom n stop seen ts with
  | case1 => rfl
  | case2 seen t ts hkind =>
      rw [List.map_cons, parametersFrom.eq_def]
      simp only [Token.kind_erase, hkind]
      rfl
  | case3 seen t hkind =>
      simp only [List.map_cons, List.map_nil, parametersFrom, Token.kind_erase, hkind]
      rfl
  | case4 seen t hkind name rest hname hfree ih =>
      simp only [List.map_cons, parametersFrom, hkind, Token.kind_erase, Token.text_erase, hname,
        hfree, if_true]
      exact ih
  | case5 seen t hkind name rest hname hfree =>
      simp only [List.map_cons, parametersFrom, hkind, Token.kind_erase, Token.text_erase, hname,
        hfree, if_true]
      rfl
  | case6 seen t hkind name rest hname =>
      simp only [List.map_cons, parametersFrom, hkind, Token.kind_erase, hname, if_false]
      rfl
  | case7 seen t ts hclose hvalue =>
      rw [List.map_cons, parametersFrom.eq_def]
      simp only [Token.kind_erase]
      rfl

theorem erases_parameters : Erases id parameters parameters := by
  intro p
  simp only [parameters]
  rw [Parser.erase, parametersFrom_erase]
  rcases parametersFrom p.names p.stop [] p.ahead with ⟨_ | _, rest⟩ <;> rfl

theorem Parser.headerAhead_erase (p : Parser) : p.erase.headerAhead = p.headerAhead := by
  rcases p with ⟨_ | ⟨a, _ | ⟨b, ts⟩⟩, stop, n⟩ <;> rfl

/-- Inside a function the tokens ahead decide about the error, and only their kinds count. -/
theorem erases_header : Erases Progress.erase (header t) (header t.erase) := by
  refine erases_get.bind fun p => ?_
  rw [Parser.headerAhead_erase]
  refine .ite (erases_fail _ _ t) ((erases_expect _ _).bind fun name =>
    erases_names.bind fun n => .ite (erases_fail _ _ name) ?_)
  exact (erases_setNames _).bind fun _ => (erases_expect _ _).bind fun _ =>
    erases_parameters.bind fun ps => erases_names.bind fun _ => (erases_setNames _).bind fun _ =>
    erases_pure Progress.erase (.block (.function name.text ps))

theorem erases_returnPart (name : String) (ps : List String) (body : List Stmt)
    (loc : Location) :
    Erases Progress.erase (returnPart name ps body loc)
      (returnPart name ps (Stmt.eraseAll body) .start) := by
  refine erases_names.bind fun n => (erases_setNames _).bind fun _ =>
    erases_advance.bind fun t => ?_
  rw [show t.erase.arity? = t.arity? from rfl]
  cases t.arity? with
  | none => exact erases_fail _ _ t
  | some arity => exact (erases_expect _ _).bind fun _ => erases_pure Progress.erase _

/-- What starts with an erased token is what starts with the token. -/
theorem begin?_erases :
    Option.Rel (Erases Progress.erase) (begin? t) (begin? t.erase) := by
  rcases t with ⟨kind, text, loc⟩
  cases kind with
  | integer n => exact .some (erases_pure _ _)
  | boolean b => exact .some (erases_pure _ _)
  | operator op => exact .some (erases_pure _ _)
  | print => exact .some (erases_pure _ _)
  | identifier => exact .some (erases_resolve _)
  | bar => exact .some (erases_header _)
  | keyword k =>
      cases k with
      | VARIABLE => exact .some (erases_declaration _)
      | ASSIGN => exact .some (erases_assignment _)
      | IF => exact .some (erases_pure _ _)
      | BEGIN => exact .some (erases_pure _ _)
      | ELSE | THEN | WHILE | REPEAT | VALUE | RETURN => exact .none
  | openParen | closeParen | endOfInput => exact .none

/-- What closes a block of an erased construct is what closes the block. -/
theorem Construct.close?_erases (c : Construct) (loc : Location) (block : List Stmt) :
    Option.Rel (Erases Progress.erase) (c.close? loc block t)
      (c.erase.close? .start (Stmt.eraseAll block) t.erase) := by
  rcases t with ⟨kind, text, l⟩
  cases kind with
  | keyword k =>
      -- Each block has a keyword of its own, or two.
      cases c with
      | branch =>
          cases k with
          | THEN => exact .some (erases_pure Progress.erase _)
          | ELSE => exact .some (erases_pure Progress.erase _)
          | _ => exact .none
      | alternative first =>
          cases k with
          | THEN => exact .some (erases_pure Progress.erase _)
          | _ => exact .none
      | condition =>
          cases k with
          | WHILE => exact .some (erases_pure Progress.erase _)
          | _ => exact .none
      | body test =>
          cases k with
          | REPEAT => exact .some (erases_pure Progress.erase _)
          | _ => exact .none
      | function name ps =>
          cases k with
          | RETURN => exact .some (erases_returnPart name ps block loc)
          | _ => exact .none
  | integer | boolean | operator | print | identifier | bar => cases c <;> exact .none
  | openParen | closeParen | endOfInput => cases c <;> exact .none

end Actions

/-- The open construct without locations. -/
def OpenConstruct.erase (o : OpenConstruct) : OpenConstruct :=
  ⟨o.construct.erase, o.opener.erase, Stmt.eraseAll o.before⟩

/-- The parse without locations. -/
def Reading.erase (r : Reading Unit) : Reading Unit :=
  ⟨r.parser.erase, r.enclosing.map OpenConstruct.erase, Stmt.eraseAll r.block, ()⟩

/-- The step of a parse without locations, be it the last one or not. -/
def ReadingStep.erase : ReadingStep Unit → ReadingStep Unit
  | .more r => .more r.erase
  | .done result p _ => .done ((result.map Stmt.eraseAll).mapError ParseError.erase) p.erase ()

namespace Reading

variable (observe : Unit → Event → Unit) (r : Reading Unit) (t : Token) (ts : List Token)

theorem start_erase :
    r.erase.start observe t.erase (ts.map Token.erase) = (r.start observe t ts).erase := by
  have hbegin := begin?_erases t
  unfold start
  generalize begin? t = x?, begin? t.erase = y? at hbegin ⊢
  cases hbegin with
  | none => rfl
  | @some x y hxy =>
      -- Whether the action completes a statement, opens a construct or fails, both agree.
      simp only []
      rw [erase, hxy.after]
      cases x { r.parser with ahead := ts } with
      | ok progress p => cases progress <;> rfl
      | error e p => rfl

theorem close_erase (o : OpenConstruct) (outer : List OpenConstruct) {x y : ParseM Progress}
    (hxy : Erases Progress.erase x y) :
    r.erase.close observe o.erase (outer.map OpenConstruct.erase) y (ts.map Token.erase) =
      (r.close observe o outer x ts).erase := by
  unfold close
  rw [erase, hxy.after]
  cases x { r.parser with ahead := ts } with
  | ok progress p => cases progress <;> rfl
  | error e p => rfl

section Closing

variable {observe : Unit → Event → Unit} {t stop : Token} {ts : List Token} {n : Names}
  {o : OpenConstruct} {outer : List OpenConstruct} {block : List Stmt} {seen : Unit}

theorem step_of_close? {x : ParseM Progress}
    (hx : o.construct.close? o.opener.loc block.reverse t = some x) :
    step observe ⟨⟨t :: ts, stop, n⟩, o :: outer, block, seen⟩ =
      close observe ⟨⟨t :: ts, stop, n⟩, o :: outer, block, seen⟩ o outer x ts := by
  simp only [step, hx]

theorem step_of_not_close? (hx : o.construct.close? o.opener.loc block.reverse t = none) :
    step observe ⟨⟨t :: ts, stop, n⟩, o :: outer, block, seen⟩ =
      start observe ⟨⟨t :: ts, stop, n⟩, o :: outer, block, seen⟩ t ts := by
  simp only [step, hx]

end Closing

/-- A step of an erased parse is the erased step. -/
theorem step_erase : r.erase.step observe = (r.step observe).erase := by
  rcases r with ⟨⟨_ | ⟨t, ts⟩, stop, n⟩, _ | ⟨o, outer⟩, block, seen⟩
  · simp only [step, erase, List.map_nil, Parser.erase, Stmt.eraseAll_reverse]
    rfl
  · simp only [step, erase, List.map_nil, List.map_cons, Parser.erase, OpenConstruct.erase,
      Construct.expected_erase]
    rfl
  · -- Outside constructs every token is tried as the start of a statement.
    exact start_erase observe _ t ts
  · -- The erased token closes the block if and only if the token does.
    have hclose := Construct.close?_erases t o.construct o.opener.loc block.reverse
    rw [← Stmt.eraseAll_reverse] at hclose
    generalize hx : o.construct.close? _ _ t = x?,
      hy : o.construct.erase.close? _ _ t.erase = y? at hclose
    cases hclose with
    | none =>
        rw [step_of_not_close? hx, ← start_erase]
        exact step_of_not_close? hy
    | some hxy =>
        rw [step_of_close? hx, ← close_erase observe _ ts o outer hxy]
        exact step_of_close? hy

/-- A parse of erased tokens is the erased parse. -/
theorem run_erase :
    r.erase.run observe =
      (((r.run observe).1.map Stmt.eraseAll).mapError ParseError.erase,
        (r.run observe).2.1.erase, ()) := by
  fun_induction run observe r with
  | case1 r s hstep ih =>
      have hs := step_erase observe r
      rw [hstep] at hs
      rw [run_of_step hs]
      exact ih
  | case2 r result p seen hstep =>
      have hs := step_erase observe r
      rw [hstep] at hs
      exact run_of_done hs

end Reading

namespace Parser

/-- Reading erased tokens gives the erased program. -/
theorem parse_erase (p : Parser) :
    p.erase.parse.1 = (p.parse.1.map Program.erase).mapError ParseError.erase := by
  have hrun := Reading.run_erase (fun _ _ => ()) ⟨p, [], [], ()⟩
  simp only [parse, parseWith]
  change Reading.run _ ⟨p.erase, [], [], ()⟩ = _ at hrun
  rw [hrun]
  rcases Reading.run (fun _ _ => ()) ⟨p, [], [], ()⟩ with ⟨_ | _, q, seen⟩ <;> rfl

theorem headersOf_erase (ts : List Token) : headersOf (ts.map Token.erase) = headersOf ts := by
  fun_induction headersOf ts with
  | case1 bar name paren ts hheader ih =>
      simp only [List.map_cons, headersOf, Token.kind_erase, hheader, and_self, if_true]
      exact congrArg _ ih
  | case2 bar name paren ts hheader ih =>
      simp only [List.map_cons, headersOf, Token.kind_erase, hheader, if_false]
      exact ih
  | case3 ts hts =>
      -- Fewer than three tokens are no header.
      rcases ts with _ | ⟨bar, _ | ⟨name, _ | ⟨paren, ts⟩⟩⟩
      · rfl
      · rfl
      · rfl
      · exact (hts bar name paren ts rfl).elim

theorem ofTokens_erase (ts : List Token) : ofTokens (ts.map Token.erase) = (ofTokens ts).erase := by
  have hlast : lastLocation (ts.map Token.erase) = .start := by
    rw [lastLocation, List.getLast?_map]
    cases ts.getLast? <;> rfl
  have hstop : ((ts.map Token.erase).find? Token.isEnd).getD (Token.endAt .start) =
      ((ts.find? Token.isEnd).getD (Token.endAt (lastLocation ts))).erase := by
    rw [List.find?_map, show Token.isEnd ∘ Token.erase = Token.isEnd from rfl]
    cases ts.find? Token.isEnd <;> rfl
  simp only [ofTokens, erase, List.takeWhile_map, headersOf_erase, hlast, hstop]
  rfl

end Parser

section Words

variable {w w' : Word} {ws ws' : List Word}

theorem ofWord_of_letters (h : w.letters = w'.letters) :
    ((Token.ofWord w).map Token.erase).mapError LexError.erase =
      ((Token.ofWord w').map Token.erase).mapError LexError.erase := by
  rcases w with ⟨first, rest, loc⟩
  rcases w' with ⟨first', rest', loc'⟩
  cases h
  -- The shape is that of the letters, and so is the character that an error blames.
  simp only [Token.ofWord, Word.letters]
  split
  · rfl
  · split <;> rfl
  · rfl
  · rfl

/-- The erased tokens of a text, from that of its first word and those of the rest. -/
theorem readWords_cons (finish : Location) (w : Word) (ws : List Word) :
    ((readWords finish (w :: ws)).1.map (List.map Token.erase)).mapError LexError.erase =
      (((Token.ofWord w).map Token.erase).mapError LexError.erase).bind fun t =>
        (((readWords finish ws).1.map (List.map Token.erase)).mapError LexError.erase).map
          (t :: ·) := by
  simp only [readWords]
  cases Token.ofWord w with
  | error e => rfl
  | ok t => rcases readWords finish ws with ⟨_ | _, rest⟩ <;> rfl

theorem readWords_of_letters (finish finish' : Location)
    (h : ws.map Word.letters = ws'.map Word.letters) :
    ((readWords finish ws).1.map (List.map Token.erase)).mapError LexError.erase =
      ((readWords finish' ws').1.map (List.map Token.erase)).mapError LexError.erase := by
  induction ws generalizing ws' with
  | nil =>
      cases List.map_eq_nil_iff.1 h.symm
      rfl
  | cons w ws ih =>
      cases ws' with
      | nil => cases h
      | cons w' ws' =>
          rw [List.map_cons, List.map_cons, List.cons.injEq] at h
          rw [readWords_cons, readWords_cons, ofWord_of_letters h.1, ih h.2]

end Words

/-- Texts of the same words have the same tokens, but for their locations. -/
theorem tokenize_of_spells {a b : String} {ws : List (List Char)} (ha : Spells a ws)
    (hb : Spells b ws) :
    ((tokenize a).map (List.map Token.erase)).mapError LexError.erase =
      ((tokenize b).map (List.map Token.erase)).mapError LexError.erase := by
  -- The scanner finds the words of the layouts, which are the same but for their places.
  rcases ha with ⟨text, ha, hwords⟩
  rcases hb with ⟨text', hb, hwords'⟩
  have hscan : wordsOf a = text := scan_of_laid ha
  have hscan' : wordsOf b = text' := scan_of_laid hb
  simp only [tokenize, TokenReader.read, TokenReader.ofSource, hscan, hscan']
  exact readWords_of_letters _ _ (hwords.trans hwords'.symm)

/-- A source text is compiled by way of its erased tokens. -/
theorem compile_erase (source : String) :
    ((compile source).map Program.erase).mapError Error.erase =
      match ((tokenize source).map (List.map Token.erase)).mapError LexError.erase with
      | .error e => .error (.lex e)
      | .ok ts => (Parser.ofTokens ts).parse.1.mapError Error.parse := by
  unfold compile Parser.ofSource
  cases tokenize source with
  | error e => rfl
  | ok ts =>
      change _ = (Parser.ofTokens (ts.map Token.erase)).parse.1.mapError Error.parse
      rw [Parser.ofTokens_erase, Parser.parse_erase]
      simp only []
      rcases (Parser.ofTokens ts).parse with ⟨_ | _, q⟩ <;> rfl

/-- Texts of the same words compile to the same, but for the locations. -/
theorem compile_of_spells {a b : String} {ws : List (List Char)} (ha : Spells a ws)
    (hb : Spells b ws) :
    ((compile a).map Program.erase).mapError Error.erase =
      ((compile b).map Program.erase).mapError Error.erase := by
  rw [compile_erase, compile_erase, tokenize_of_spells ha hb]

end StackLang
