import StackLang.Evaluate
import StackLang.Proofs.Grammar

/-!
# What a parser accepts is derivable

A parser that succeeds has found a derivation: `reads_of_run`.

The parser keeps open constructs on a stack, and a derivation nests, so a point in
the middle of a parse is a derivation with holes. `Entered` describes one open
construct: its first token, what has been read of it, and where the block that is
being read has started. `Opened` strings the open constructs together, each
starting where the statements before it in the block around it have ended. A
parse is at all times at the end of the statements of an innermost block that has
been entered in this way, `Reading.Derived`. Starting a statement adds to the
block or opens a hole, closing a block fills one, and at the end of input no hole
is left.

## Main definitions

* `Entered`: A construct has been read up to the start of a block.
* `Leads`: What the tokens just read amount to, as a derivation.
* `Opened`: The open constructs lead from the start of a parse to a block.
* `Reading.Derived`: A parse follows the grammar.

## Theorems

* `leads_of_begin?`, `leads_of_close?`: Both ways forward follow the grammar.
* `Reading.derived_of_step`: A step keeps to the grammar.
* `Reading.reads_of_run`: A parse that succeeds is a derivation.
* `reads_of_compile`: So is the program of a source text.
-/

namespace StackLang

namespace ParseM

variable {α β : Type} {p q : Parser}

theorem exists_of_bind {x : ParseM α} {f : α → ParseM β} {b : β} (h : (x >>= f) p = .ok b q) :
    ∃ a r, x p = .ok a r ∧ f a r = .ok b q := by
  simp only [Bind.bind, EStateM.bind] at h
  cases hx : x p with
  | ok a r =>
      rw [hx] at h
      exact ⟨a, r, rfl, h⟩
  | error e r =>
      rw [hx] at h
      cases h

theorem exists_of_expect {kind : TokenKind} {expected : Expected} {t : Token}
    (h : expect kind expected p = .ok t q) :
    t.kind = kind ∧ ∃ ts, p.ahead = t :: ts ∧ q = { p with ahead := ts } := by
  unfold expect at h
  cases hp : p.ahead with
  | nil => rw [hp] at h; cases h
  | cons u us =>
      rw [hp] at h
      by_cases hk : u.kind = kind
      · simp only [hk, if_true] at h
        cases h
        exact ⟨hk, us, rfl, rfl⟩
      · simp only [hk, if_false] at h
        cases h

theorem unresolved_ne_ok {n : Names} {t : Token} {r : Progress} : unresolved n t p ≠ .ok r q := by
  unfold unresolved
  cases n.scope <;> exact nofun

theorem exists_of_acceptAssign {b : Bool} (h : acceptAssign p = .ok b q) :
    (b = true ∧ ∃ a ts, p.ahead = a :: ts ∧ a.kind = .keyword .ASSIGN ∧
      q = { p with ahead := ts }) ∨
    (b = false ∧ q = p ∧ ∀ a ∈ p.ahead.head?, a.kind ≠ .keyword .ASSIGN) := by
  unfold acceptAssign at h
  cases hp : p.ahead with
  | nil =>
      rw [hp] at h
      cases h
      exact .inr ⟨rfl, rfl, fun a ha => nomatch ha⟩
  | cons a ts =>
      rw [hp] at h
      by_cases hk : a.kind = .keyword .ASSIGN
      · simp only [hk, if_true] at h
        cases h
        exact .inl ⟨rfl, a, ts, rfl, hk, rfl⟩
      · simp only [hk, if_false] at h
        cases h
        refine .inr ⟨rfl, rfl, ?_⟩
        intro b hb
        cases hb
        exact hk

end ParseM

open ParseM

/-- The construct whose first token is `t` has been read from the tokens `ts` on, and
    its current block starts with the names `n'` and the tokens `rest`. -/
inductive Entered (t : Token) (n : Names) :
    List Token → Construct → Names → List Token → Prop
  | branch {ts : List Token} (ht : t.kind = .keyword .IF) :
      Entered t n (t :: ts) .branch n ts
  | alternative {n' : Names} {e : Token} {ts rest : List Token} {block : List Stmt}
      (ht : t.kind = .keyword .IF) (hblock : Reads n ts block n' (e :: rest))
      (he : e.kind = .keyword .ELSE) :
      Entered t n (t :: ts) (.alternative block) n' rest
  | condition {ts : List Token} (ht : t.kind = .keyword .BEGIN) :
      Entered t n (t :: ts) .condition n ts
  | body {n' : Names} {e : Token} {ts rest : List Token} {condition : List Stmt}
      (ht : t.kind = .keyword .BEGIN) (hcondition : Reads n ts condition n' (e :: rest))
      (he : e.kind = .keyword .WHILE) :
      Entered t n (t :: ts) (.body condition) n' rest
  | function {name paren : Token} {ts rest : List Token} {ps : List String}
      (hscope : n.scope = none) (ht : t.kind = .bar) (hname : name.kind = .identifier)
      (hfree : n.isGlobal name.text = false) (hparen : paren.kind = .openParen)
      (hps : Parameters (n.declareFunction name.text) [] ts ps rest) :
      Entered t n (t :: name :: paren :: ts) (.function name.text ps)
        ((n.declareFunction name.text).enter name.text ps) rest

/-- What the tokens from `ts` on amount to, with `q` the parser after them: a complete
    statement, or a construct whose next block follows. -/
def Leads (t : Token) (n : Names) (ts : List Token) : Progress → Parser → Prop
  | .statement s, q => Reads n ts [s] q.names q.ahead
  | .block c, q => Entered t n ts c q.names q.ahead

section Starting

variable {p q : Parser} {t : Token} {r : Progress}

theorem leads_of_resolve (ht : t.kind = .identifier) (h : resolve t p = .ok r q) :
    Leads t p.names (t :: p.ahead) r q := by
  rcases exists_of_bind h with ⟨n, p₁, hn, h⟩
  cases hn
  by_cases hvar : p.names.isVariable t.text
  · rw [if_pos hvar] at h
    rcases exists_of_bind h with ⟨b, p₂, hb, h⟩
    cases h
    rcases exists_of_acceptAssign hb with ⟨rfl, a, ts, hahead, ha, rfl⟩ | ⟨rfl, rfl, hnext⟩
    · rw [hahead]
      exact .single (.assignAfter ht hvar ha)
    · exact .single (.read ht hvar hnext)
  · rw [if_neg hvar] at h
    by_cases hfunction : p.names.isFunction t.text
    · rw [if_pos hfunction] at h
      cases h
      exact .single (.call ht (Bool.eq_false_iff.2 hvar) hfunction)
    · rw [if_neg hfunction] at h
      exact absurd h unresolved_ne_ok

theorem leads_of_declaration (ht : t.kind = .keyword .VARIABLE)
    (h : declaration t p = .ok r q) : Leads t p.names (t :: p.ahead) r q := by
  rcases exists_of_bind h with ⟨x, p₁, hexpect, h⟩
  rcases exists_of_expect hexpect with ⟨hx, ts, hahead, rfl⟩
  rcases exists_of_bind h with ⟨n, p₂, hn, h⟩
  cases hn
  by_cases hfree : p.names.isFree x.text
  · rw [if_pos hfree] at h
    cases h
    rw [hahead]
    exact .single (.declare ht hx hfree)
  · rw [if_neg hfree] at h
    cases h

theorem leads_of_assignment (ht : t.kind = .keyword .ASSIGN)
    (h : assignment t p = .ok r q) : Leads t p.names (t :: p.ahead) r q := by
  rcases exists_of_bind h with ⟨x, p₁, hexpect, h⟩
  rcases exists_of_expect hexpect with ⟨hx, ts, hahead, rfl⟩
  rcases exists_of_bind h with ⟨n, p₂, hn, h⟩
  cases hn
  by_cases hvar : p.names.isVariable x.text
  · rw [if_pos hvar] at h
    cases h
    rw [hahead]
    exact .single (.assign ht hx hvar)
  · rw [if_neg hvar] at h
    by_cases hfunction : p.names.isFunction x.text
    · rw [if_pos hfunction] at h
      cases h
    · rw [if_neg hfunction] at h
      exact absurd h unresolved_ne_ok

theorem parameters_of_parametersFrom {n : Names} {stop : Token} {seen ps : List String}
    {ts rest : List Token} (h : parametersFrom n stop seen ts = (.ok ps, rest)) :
    Parameters n seen ts ps rest := by
  fun_induction parametersFrom n stop seen ts with
  | case1 => cases h
  | case2 seen t ts ht =>
      cases h
      exact .close ht
  | case3 => cases h
  | case4 seen t ht x ts hx hfree ih => exact .value ht hx hfree (ih h)
  | case5 => cases h
  | case6 => cases h
  | case7 => cases h

theorem exists_of_parameters {ps : List String} (h : parameters p = .ok ps q) :
    ∃ rest, Parameters p.names [] p.ahead ps rest ∧ q = { p with ahead := rest } := by
  unfold parameters at h
  cases hfrom : parametersFrom p.names p.stop [] p.ahead with
  | mk result rest =>
      rw [hfrom] at h
      cases result with
      | error e => cases h
      | ok ps' =>
          cases h
          exact ⟨rest, parameters_of_parametersFrom hfrom, rfl⟩

theorem leads_of_header (ht : t.kind = .bar) (h : header t p = .ok r q) :
    Leads t p.names (t :: p.ahead) r q := by
  rcases exists_of_bind h with ⟨p₁, p₂, hp, h⟩
  cases hp
  by_cases hscope : p.names.scope.isSome
  · rw [if_pos hscope] at h
    cases h
  · rw [if_neg hscope] at h
    rcases exists_of_bind h with ⟨x, p₃, hexpect, h⟩
    rcases exists_of_expect hexpect with ⟨hx, ts, hahead, rfl⟩
    rcases exists_of_bind h with ⟨n, p₄, hn, h⟩
    cases hn
    by_cases hfree : p.names.isGlobal x.text
    · rw [if_pos hfree] at h
      cases h
    · rw [if_neg hfree] at h
      rcases exists_of_bind h with ⟨_, p₅, hset, h⟩
      cases hset
      rcases exists_of_bind h with ⟨paren, p₆, hexpect', h⟩
      rcases exists_of_expect hexpect' with ⟨hparen, us, hus, rfl⟩
      rcases exists_of_bind h with ⟨ps, p₇, hparameters, h⟩
      rcases exists_of_parameters hparameters with ⟨rest, hps, rfl⟩
      cases h
      cases hus
      rw [hahead]
      exact .function (Option.not_isSome_iff_eq_none.1 hscope) ht hx (Bool.eq_false_iff.2 hfree)
        hparen hps

/-- A token that starts a statement leads on as the grammar says. -/
theorem leads_of_begin? {x : ParseM Progress} (hx : begin? t = some x) (h : x p = .ok r q) :
    Leads t p.names (t :: p.ahead) r q := by
  rcases t with ⟨kind, text, loc⟩
  -- One rule for each kind of token that can start a statement.
  cases kind with
  | integer n => cases hx; cases h; exact .single (.integer rfl)
  | boolean b => cases hx; cases h; exact .single (.boolean rfl)
  | operator op => cases hx; cases h; exact .single (.operator rfl)
  | print => cases hx; cases h; exact .single (.print rfl)
  | identifier => cases hx; exact leads_of_resolve rfl h
  | bar => cases hx; exact leads_of_header rfl h
  | keyword k =>
      cases k with
      | VARIABLE => cases hx; exact leads_of_declaration rfl h
      | ASSIGN => cases hx; exact leads_of_assignment rfl h
      | IF => cases hx; cases h; exact .branch rfl
      | BEGIN => cases hx; cases h; exact .condition rfl
      | ELSE | THEN | WHILE | REPEAT | VALUE | RETURN => cases hx
  | openParen | closeParen | endOfInput => cases hx

end Starting

section Closing

variable {n n₁ : Names} {p q : Parser} {t e : Token} {ts ts₁ : List Token} {block : List Stmt}
  {r : Progress}

theorem leads_of_returnPart {name : String} {ps : List String}
    (hc : Entered t n ts (.function name ps) n₁ ts₁)
    (hblock : Reads n₁ ts₁ block p.names (e :: p.ahead)) (he : e.kind = .keyword .RETURN)
    (h : returnPart name ps block t.loc p = .ok r q) : Leads t n ts r q := by
  rcases exists_of_bind h with ⟨m, p₁, hm, h⟩
  cases hm
  rcases exists_of_bind h with ⟨_, p₂, hset, h⟩
  cases hset
  rcases exists_of_bind h with ⟨count, p₃, hadvance, h⟩
  cases harity : count.arity? with
  | none => rw [harity] at h; cases h
  | some arity =>
      rw [harity] at h
      rcases exists_of_bind h with ⟨bar', p₄, hexpect, h⟩
      rcases exists_of_expect hexpect with ⟨hbar', us, hus, rfl⟩
      cases h
      cases hp : p.ahead with
      | nil =>
          -- The end of input is not consumed, so no bar can follow it.
          simp only [advance, hp] at hadvance
          cases hadvance
          cases hus
      | cons u ts₂ =>
          simp only [advance, hp] at hadvance
          cases hadvance
          cases hus
          rw [hp] at hblock
          cases hc with
          | function hscope ht hname hfree hparen hps =>
              exact .function hscope ht hname hfree hparen hps hblock he harity hbar' .nil

/-- A token that closes a block leads on as the grammar says. -/
theorem leads_of_close? {c : Construct} {x : ParseM Progress} (hc : Entered t n ts c n₁ ts₁)
    (hblock : Reads n₁ ts₁ block p.names (e :: p.ahead)) (hx : c.close? t.loc block e = some x)
    (h : x p = .ok r q) : Leads t n ts r q := by
  unfold Construct.close? at hx
  split at hx
  next he =>
      cases hx
      cases h
      cases hc with
      | branch ht => exact .ifThen ht hblock he .nil
  next he =>
      cases hx
      cases h
      cases hc with
      | branch ht => exact .alternative ht hblock he
  next he =>
      cases hx
      cases h
      cases hc with
      | alternative ht hfirst hfirst' => exact .ifElse ht hfirst hfirst' hblock he .nil
  next he =>
      cases hx
      cases h
      cases hc with
      | condition ht => exact .body ht hblock he
  next he =>
      cases hx
      cases h
      cases hc with
      | body ht htest htest' => exact .loop ht htest htest' hblock he .nil
  next he => cases hx; exact leads_of_returnPart hc hblock he h
  next => cases hx

end Closing

/-- The open constructs, innermost first, lead from the names `n` and the tokens `ts` to
    the start of a block with the names `n'` and the tokens `rest`. -/
inductive Opened (n : Names) (ts : List Token) :
    List OpenConstruct → Names → List Token → Prop
  | nil : Opened n ts [] n ts
  | cons {o : OpenConstruct} {outer : List OpenConstruct} {n₁ n₂ n' : Names}
      {ts₁ ts₂ rest : List Token} (houter : Opened n ts outer n₁ ts₁)
      (hbefore : Reads n₁ ts₁ o.before.reverse n₂ ts₂)
      (ho : Entered o.opener n₂ ts₂ o.construct n' rest) :
      Opened n ts (o :: outer) n' rest

namespace Reading

variable {σ : Type} {n : Names} {ts : List Token}

/-- What has been read from the names `n` and the tokens `ts` on follows the grammar. -/
def Derived (n : Names) (ts : List Token) (r : Reading σ) : Prop :=
  ∃ n₁ ts₁, Opened n ts r.enclosing n₁ ts₁ ∧
    Reads n₁ ts₁ r.block.reverse r.parser.names r.parser.ahead

theorem start_ne_ok {observe : σ → Event → σ} (r : Reading σ) (t : Token) (us : List Token)
    {ss : List Stmt} {p : Parser} {seen : σ} :
    r.start observe t us ≠ .done (.ok ss) p seen := by
  intro h
  unfold start at h
  simp only [] at h
  split at h
  · cases h
  · split at h <;> cases h

theorem close_ne_ok {observe : σ → Event → σ} (r : Reading σ) (o : OpenConstruct)
    (outer : List OpenConstruct) (x : ParseM Progress) (us : List Token)
    {ss : List Stmt} {p : Parser} {seen : σ} :
    r.close observe o outer x us ≠ .done (.ok ss) p seen := by
  intro h
  unfold close at h
  split at h <;> cases h

theorem derived_of_start {observe : σ → Event → σ} {r s : Reading σ} {t : Token}
    {us : List Token} (hr : r.Derived n ts) (hahead : r.parser.ahead = t :: us)
    (h : r.start observe t us = .more s) : s.Derived n ts := by
  rcases hr with ⟨n₁, ts₁, hopened, hblock⟩
  rw [hahead] at hblock
  unfold start at h
  simp only [] at h
  split at h
  · cases h
  next x hx =>
      split at h
      next hp =>
          -- A complete statement is added to the block, which is kept in reverse.
          cases h
          refine ⟨n₁, ts₁, hopened, ?_⟩
          rw [List.reverse_cons]
          exact hblock.append (leads_of_begin? hx hp)
      next hp =>
          -- A construct opens a hole, whose block is empty so far.
          cases h
          exact ⟨_, _, .cons hopened hblock (leads_of_begin? hx hp), .nil⟩
      next => cases h

theorem derived_of_close {observe : σ → Event → σ} {r s : Reading σ} {o : OpenConstruct}
    {outer : List OpenConstruct} {x : ParseM Progress} {t : Token} {us : List Token}
    (hr : r.Derived n ts) (henclosing : r.enclosing = o :: outer)
    (hahead : r.parser.ahead = t :: us)
    (hx : o.construct.close? o.opener.loc r.block.reverse t = some x)
    (h : r.close observe o outer x us = .more s) : s.Derived n ts := by
  rcases hr with ⟨n₁, ts₁, hopened, hblock⟩
  rw [henclosing] at hopened
  rw [hahead] at hblock
  cases hopened with
  | cons houter hbefore ho =>
      unfold close at h
      split at h
      next hp =>
          -- The hole is filled, and the construct joins the statements before it.
          cases h
          refine ⟨_, _, houter, ?_⟩
          rw [List.reverse_cons]
          exact hbefore.append (leads_of_close? ho hblock hx hp)
      next hp =>
          -- The construct has another block.
          cases h
          exact ⟨_, _, .cons houter hbefore (leads_of_close? ho hblock hx hp), .nil⟩
      next => cases h

/-- A step keeps to the grammar. -/
theorem derived_of_step {observe : σ → Event → σ} {r s : Reading σ} (hr : r.Derived n ts)
    (h : r.step observe = .more s) : s.Derived n ts := by
  unfold step at h
  split at h
  · cases h
  next hahead => exact derived_of_start hr hahead h
  · cases h
  next henclosing hahead =>
      split at h
      next hx => exact derived_of_close hr henclosing hahead hx h
      next => exact derived_of_start hr hahead h

/-- A step that ends a parse with success finds no open construct and nothing ahead. -/
theorem reads_of_step {observe : σ → Event → σ} {r : Reading σ} {ss : List Stmt} {p : Parser}
    {seen : σ} (hr : r.Derived n ts) (h : r.step observe = .done (.ok ss) p seen) :
    Reads n ts ss p.names [] := by
  unfold step at h
  split at h
  next henclosing hahead =>
      -- Without holes the innermost block is the whole text.
      cases h
      rcases hr with ⟨n₁, ts₁, hopened, hblock⟩
      rw [henclosing] at hopened
      rw [hahead] at hblock
      cases hopened
      exact hblock
  next => exact absurd h (start_ne_ok r _ _)
  next => cases h
  next =>
      split at h
      next => exact absurd h (close_ne_ok r _ _ _ _)
      next => exact absurd h (start_ne_ok r _ _)

/-- A parse that succeeds is a derivation. -/
theorem reads_of_run {observe : σ → Event → σ} {r : Reading σ} {ss : List Stmt} {p : Parser}
    {seen : σ} (hr : r.Derived n ts) (h : r.run observe = (.ok ss, p, seen)) :
    Reads n ts ss p.names [] := by
  fun_induction run observe r with
  | case1 r s hstep ih => exact ih (derived_of_step hr hstep) h
  | case2 r result q seen' hstep =>
      cases h
      exact reads_of_step hr hstep

end Reading

theorem reads_of_parse {p q : Parser} {program : Program} (h : p.parse = (.ok program, q)) :
    ∃ n', Reads p.names p.ahead program.statements n' [] ∧ program.globals = n'.pending := by
  unfold Parser.parse Parser.parseWith at h
  rcases hrun : Reading.run (fun _ _ => ()) ⟨p, [], [], ()⟩ with ⟨result, p', seen⟩
  rw [hrun] at h
  cases result with
  | error e => cases h
  | ok ss =>
      cases h
      exact ⟨p'.names, Reading.reads_of_run ⟨_, _, .nil, .nil⟩ hrun, rfl⟩

section Source

theorem kind_of_ofWord {w : Word} {t : Token} (h : Token.ofWord w = .ok t) :
    t.kind ≠ .endOfInput := by
  have hfixed : ∀ entry ∈ spellings, entry.2 ≠ .endOfInput := by decide
  unfold Token.ofWord at h
  split at h
  next kind hshape =>
      cases h
      unfold shape? at hshape
      split at hshape
      next hkind =>
          -- No fixed spelling is that of the end.
          cases hshape
          rcases List.lookup_eq_some_iff.1 hkind with ⟨before, after, hspellings, _⟩
          exact hfixed (_, kind) (hspellings ▸ List.mem_append_right before List.mem_cons_self)
      next =>
          split at hshape
          · cases hshape
          · split at hshape <;> cases hshape
  next =>
      split at h
      · cases h
        exact nofun
      · cases h
  next =>
      cases h
      exact nofun
  next => cases h

/-- The tokens of a text are those of its words and the end. -/
theorem exists_of_readWords {finish : Location} {ws rest : List Word} {ts : List Token}
    (h : readWords finish ws = (.ok ts, rest)) :
    ∃ us, ts = us ++ [Token.endAt finish] ∧ ∀ t ∈ us, t.kind ≠ .endOfInput := by
  induction ws generalizing ts with
  | nil =>
      cases h
      exact ⟨[], rfl, fun t ht => absurd ht List.not_mem_nil⟩
  | cons w ws ih =>
      unfold readWords at h
      cases hw : Token.ofWord w with
      | error e => rw [hw] at h; cases h
      | ok t =>
          rw [hw] at h
          rcases hws : readWords finish ws with ⟨result, rest'⟩
          rw [hws] at h
          cases result with
          | error e => cases h
          | ok ts' =>
              cases h
              rcases ih hws with ⟨us, rfl, hus⟩
              refine ⟨t :: us, rfl, ?_⟩
              intro u hu
              rcases List.mem_cons.1 hu with rfl | hu
              · exact kind_of_ofWord hw
              · exact hus u hu

theorem headersOf_append {ts : List Token} {e : Token} (he : e.kind = .endOfInput) :
    headersOf (ts ++ [e]) = headersOf ts := by
  fun_induction headersOf ts with
  | case1 bar name paren ts hheader ih =>
      simp only [List.cons_append, headersOf, hheader, and_self, if_true]
      rw [← ih]
      rfl
  | case2 bar name paren ts hheader ih =>
      simp only [List.cons_append, headersOf, hheader, if_false]
      exact ih
  | case3 ts hts =>
      -- At most two tokens, and an end is no parenthesis.
      match ts with
      | [] => rfl
      | [a] => rfl
      | [a, b] => simp only [List.cons_append, List.nil_append, headersOf, he, reduceCtorEq,
          and_false, if_false]
      | a :: b :: c :: us => exact absurd rfl (hts a b c us)

/-- A parser at the start of tokens that end with the end of input, and do not contain it
    before. -/
theorem Parser.ofTokens_append {ts : List Token} {e : Token}
    (hts : ∀ t ∈ ts, t.kind ≠ .endOfInput) (he : e.kind = .endOfInput) :
    Parser.ofTokens (ts ++ [e]) = ⟨ts, e, .ofHeaders (headersOf ts)⟩ := by
  have hnot : ∀ t ∈ ts, (!t.isEnd) = true := by
    intro t ht
    simp [Token.isEnd, hts t ht]
  have hend : e.isEnd = true := by simp [Token.isEnd, he]
  have hahead : (ts ++ [e]).takeWhile (fun t => !t.isEnd) = ts := by
    rw [List.takeWhile_append_of_pos hnot]
    simp [hend]
  have hstop : (ts ++ [e]).find? Token.isEnd = some e := by
    rw [List.find?_append, List.find?_eq_none.2 fun t ht => by simpa using hnot t ht]
    simp [hend]
  simp only [Parser.ofTokens, hahead, hstop, Option.getD_some, headersOf_append he]

/-- The program of a source text has been read from its tokens up to the end, with the
    headers among them. -/
theorem reads_of_compile {source : String} {p : Program} (h : compile source = .ok p) :
    ∃ ts finish n', tokenize source = .ok (ts ++ [Token.endAt finish]) ∧
      Reads (.ofHeaders (headersOf ts)) ts p.statements n' [] ∧ p.globals = n'.pending := by
  unfold compile Parser.ofSource at h
  cases htokens : tokenize source with
  | error e => rw [htokens] at h; cases h
  | ok toks =>
      simp only [htokens] at h
      rcases hparse : (Parser.ofTokens toks).parse with ⟨result, q⟩
      rw [hparse] at h
      cases result with
      | error e => cases h
      | ok program =>
          cases h
          -- The parser stands before the end of the text, and the end adds no header.
          rcases hread : readWords (wordsOf source).finish (wordsOf source).words with
            ⟨result, rest⟩
          have htoks : (readWords (wordsOf source).finish (wordsOf source).words).1 = .ok toks :=
            htokens
          rw [hread] at htoks
          cases htoks
          rcases exists_of_readWords hread with ⟨ts, rfl, hts⟩
          rcases reads_of_parse hparse with ⟨n', hreads, hglobals⟩
          rw [Parser.ofTokens_append hts rfl] at hreads
          exact ⟨ts, _, n', rfl, hreads, hglobals⟩

end Source

end StackLang
