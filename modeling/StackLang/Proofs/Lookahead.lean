import StackLang.Proofs.Progress

/-!
# How far a parser looks ahead

A parser that has failed has not looked further than two tokens.

Two parsers are compared whose tokens are the same up to some place, and differ from there on
in any way: `Parser.Abreast`. They go on alike as long as what differs is out of sight, and
that is the case while two more tokens are in common, or while the tokens are the same up to
their ends: `Parser.ClearOf`. An action is nearsighted if it does the same on both whenever it
stops before what differs comes in sight. Since actions only move forward, nearsighted actions
compose, and a parse is made of them.

The names of the two parsers need not be the same. The headers of functions are collected from
the whole text, in the order in which they stand there, and only whether a function is among
them is ever asked for.

## Main definitions

* `Names.Alike`: The same names, up to the order of the headers.
* `Parser.Abreast`: Two parsers have the same tokens ahead up to two given places.
* `Parser.ClearOf`: A parser does not see what is at these places.
* `ParseM.SameResult`, `ReadingStep.Abreast`: The same result or step, with parsers that are
  abreast.
* `ParseM.Nearsighted`: An action does the same on parsers that are abreast.

## Theorems

* `Parser.Abreast.of_nil`, `Parser.Abreast.of_cons`: What comes next for parsers that are
  abreast.
* `ParseM.Nearsighted.bind`: Nearsighted actions compose.
* `nearsighted_of_begin?`, `nearsighted_of_close?`: The actions of a parse are nearsighted.
* `Reading.step_abreast`, `Reading.run_abreast`: Steps and parses of parsers that are abreast.
* `exists_abreast`: Tokens with an initial part in common.
* `parse_error_of_agree`: A parse error is decided by the tokens up to the second one after
  those that were read.
-/

namespace StackLang

/-- The same names, where the headers are those of the same functions. -/
structure Names.Alike (n n' : Names) : Prop where
  headers : ∀ x, n'.headers.contains x = n.headers.contains x
  vars : n'.vars = n.vars
  functions : n'.functions = n.functions
  pending : n'.pending = n.pending
  scope : n'.scope = n.scope

namespace Names.Alike

variable {n n' : Names}

theorem refl (n : Names) : n.Alike n := ⟨fun _ => rfl, rfl, rfl, rfl, rfl⟩

theorem ofHeaders {hs hs' : List String} (h : ∀ x, x ∈ hs' ↔ x ∈ hs) :
    (Names.ofHeaders hs).Alike (Names.ofHeaders hs') := by
  refine ⟨fun x => ?_, rfl, rfl, rfl, rfl⟩
  rw [Bool.eq_iff_iff]
  simpa [Names.ofHeaders] using h x

theorem isGlobal (h : n.Alike n') (x : String) : n'.isGlobal x = n.isGlobal x := by
  rw [Names.isGlobal, Names.isGlobal, h.vars, h.functions]

theorem isVariable (h : n.Alike n') (x : String) : n'.isVariable x = n.isVariable x := by
  rw [Names.isVariable, Names.isVariable, h.scope, h.vars]

theorem isFunction (h : n.Alike n') (x : String) : n'.isFunction x = n.isFunction x := by
  rw [Names.isFunction, Names.isFunction, h.headers, h.functions]

theorem isFreeLocal (h : n.Alike n') (locals : List String) (x : String) :
    n'.isFreeLocal locals x = n.isFreeLocal locals x := by
  rw [Names.isFreeLocal, Names.isFreeLocal, h.isGlobal, h.isFunction]

theorem isFree (h : n.Alike n') (x : String) : n'.isFree x = n.isFree x := by
  rw [Names.isFree, Names.isFree, h.scope]
  cases n.scope with
  | none => simp only [h.isGlobal]
  | some f => simp only [h.isFreeLocal]

theorem locals (h : n.Alike n') : n'.locals = n.locals := by
  rw [Names.locals, Names.locals, h.scope]

theorem declare (h : n.Alike n') (x : String) : (n.declare x).Alike (n'.declare x) := by
  rcases n with ⟨headers, vars, functions, pending, scope⟩
  rcases n' with ⟨headers', vars', functions', pending', scope'⟩
  rcases h with ⟨hheaders, rfl, rfl, rfl, rfl⟩
  cases scope' <;> exact ⟨hheaders, rfl, rfl, rfl, rfl⟩

theorem declareFunction (h : n.Alike n') (x : String) :
    (n.declareFunction x).Alike (n'.declareFunction x) :=
  ⟨h.headers, h.vars, congrArg (· ++ [x]) h.functions, h.pending, h.scope⟩

theorem enter (h : n.Alike n') (function : String) (parameters : List String) :
    (n.enter function parameters).Alike (n'.enter function parameters) :=
  ⟨h.headers, h.vars, h.functions, h.pending, rfl⟩

theorem leave (h : n.Alike n') : n.leave.Alike n'.leave :=
  ⟨h.headers, h.vars, h.functions, h.pending, rfl⟩

end Names.Alike

namespace Parser

/-- The parsers `p` and `q` have the same tokens ahead, the one up to `u` and the other up to
    `v`, and alike names. -/
structure Abreast (u v p q : Parser) : Prop where
  ahead : ∃ ts, p.ahead = ts ++ u.ahead ∧ q.ahead = ts ++ v.ahead
  stop_left : p.stop = u.stop
  stop_right : q.stop = v.stop
  names : p.names.Alike q.names

/-- The parser `p` does not see what is at `u` or at `v`: there are two more tokens before it,
    or there is nothing but the same end. -/
def ClearOf (u v p : Parser) : Prop :=
  u.ahead.length + 2 ≤ p.ahead.length ∨ u.ahead = [] ∧ v.ahead = [] ∧ u.stop = v.stop

variable {u v p q : Parser}

theorem ClearOf.of_suffix (h : ClearOf u v q) (hq : q.ahead <:+ p.ahead) : ClearOf u v p :=
  h.imp_left fun hle => Nat.le_trans hle hq.length_le

theorem Abreast.setNames (h : Abreast u v p q) {n n' : Names} (hn : n.Alike n') :
    Abreast u v { p with names := n } { q with names := n' } :=
  ⟨h.ahead, h.stop_left, h.stop_right, hn⟩

section Next

variable {t stop stop' : Token} {ts ts' : List Token} {n n' : Names}

/-- Parsers that are abreast come to the same end. -/
theorem Abreast.of_nil (h : Abreast u v ⟨[], stop, n⟩ ⟨ts', stop', n'⟩)
    (hclear : ClearOf u v ⟨[], stop, n⟩) : ts' = [] ∧ stop' = stop := by
  rcases h with ⟨⟨ts, hts, hts'⟩, hstop, hstop', _⟩
  rcases hclear with hle | ⟨hu, hv, hend⟩
  · exact absurd hle (by simp)
  · rcases List.append_eq_nil_iff.1 hts.symm with ⟨rfl, _⟩
    exact ⟨hts'.trans hv, hstop'.trans (hend.symm.trans hstop.symm)⟩

/-- Parsers that are abreast have the same next token, and are abreast after it. -/
theorem Abreast.of_cons (h : Abreast u v ⟨t :: ts, stop, n⟩ ⟨ts', stop', n'⟩)
    (hclear : ClearOf u v ⟨t :: ts, stop, n⟩) :
    ∃ rest, ts' = t :: rest ∧ Abreast u v ⟨ts, stop, n⟩ ⟨rest, stop', n'⟩ := by
  rcases h with ⟨⟨common, hts, hts'⟩, hstop, hstop', hnames⟩
  cases common with
  | nil =>
      -- What differs would be next, and that is too near.
      have hu : u.ahead = t :: ts := hts.symm
      rcases hclear with hle | ⟨hnil, _⟩
      · rw [hu] at hle
        exact absurd hle (by simp)
      · rw [hu] at hnil
        cases hnil
  | cons c common =>
      rcases List.cons.inj hts with ⟨rfl, rfl⟩
      exact ⟨common ++ v.ahead, hts', ⟨common, rfl, rfl⟩, hstop, hstop', hnames⟩

end Next

/-- The two tokens after a bar are in sight. -/
theorem Abreast.headerAhead (h : Abreast u v p q) (hclear : ClearOf u v p) :
    q.headerAhead = p.headerAhead := by
  rcases p with ⟨_, stop, n⟩
  rcases q with ⟨_, stop', n'⟩
  rcases h with ⟨⟨ts, rfl, rfl⟩, rfl, rfl, hnames⟩
  rcases hclear with hle | ⟨hu, hv, _⟩
  · -- This is where two tokens are needed and one would not do.
    rcases ts with _ | ⟨name, _ | ⟨paren, ts⟩⟩
    · exact absurd hle (by simp)
    · exact absurd hle (by simp)
    · rfl
  · rw [hu, hv]
    rfl

end Parser

variable {u v : Parser}

/-- The same result, with parsers that are abreast. -/
inductive ParseM.SameResult (u v : Parser) {α : Type} :
    EStateM.Result ParseError Parser α → EStateM.Result ParseError Parser α → Prop where
  | ok {a : α} {p q : Parser} (h : Parser.Abreast u v p q) : SameResult u v (.ok a p) (.ok a q)
  | error {e : ParseError} {p q : Parser} (h : Parser.Abreast u v p q) :
      SameResult u v (.error e p) (.error e q)

/-- The state that an action leaves, whether it succeeds or fails. -/
def stateLeft {ε σ α : Type} : EStateM.Result ε σ α → σ
  | .ok _ s => s
  | .error _ s => s

namespace ParseM

variable {α β : Type}

theorem Forward.suffix {x : ParseM α} (hx : Forward x) (p : Parser) :
    (stateLeft (x p)).ahead <:+ p.ahead := by
  have h := hx p
  cases hxp : x p with
  | ok a q => rw [hxp] at h; exact h.1
  | error e q => rw [hxp] at h; exact h.1

/-- The action `x` does on a parser what `y` does on one that is abreast, if it stops before it
    sees what differs. -/
structure Nearsighted (u v : Parser) (x y : ParseM α) : Prop where
  forward : Forward x
  same : ∀ p q, Parser.Abreast u v p q → Parser.ClearOf u v (stateLeft (x p)) →
    SameResult u v (x p) (y q)

theorem Nearsighted.bind {x y : ParseM α} {f g : α → ParseM β} (hx : Nearsighted u v x y)
    (hf : ∀ a, Nearsighted u v (f a) (g a)) : Nearsighted u v (x >>= f) (y >>= g) := by
  refine ⟨hx.forward.bind fun a => (hf a).forward, fun p q hpq hclear => ?_⟩
  have hsame := hx.same p q hpq
  simp only [Bind.bind, EStateM.bind] at hclear ⊢
  cases hxp : x p with
  | error e p₁ =>
      rw [hxp] at hclear hsame
      generalize y q = result at hsame
      cases hsame hclear with
      | error h => exact .error h
  | ok a p₁ =>
      rw [hxp] at hclear hsame
      -- The second action has gone on from where the first one stopped.
      have hclear₁ : Parser.ClearOf u v p₁ := hclear.of_suffix ((hf a).forward.suffix p₁)
      generalize y q = result at hsame
      cases hsame hclear₁ with
      | ok h => exact (hf a).same _ _ h hclear

theorem Nearsighted.ite {c : Prop} [Decidable c] {x₁ x₂ y₁ y₂ : ParseM α}
    (h₁ : Nearsighted u v x₁ y₁) (h₂ : Nearsighted u v x₂ y₂) :
    Nearsighted u v (if c then x₁ else x₂) (if c then y₁ else y₂) := by
  split
  · exact h₁
  · exact h₂

theorem nearsighted_pure (a : α) : Nearsighted u v (pure a) (pure a) :=
  ⟨forward_pure a, fun _ _ h _ => .ok h⟩

theorem nearsighted_fail (cause : ParseCause) (t : Token) :
    Nearsighted u v (fail cause t : ParseM α) (fail cause t) :=
  ⟨forward_fail cause t, fun _ _ h _ => .error h⟩

/-- The names may differ, but what is done with them may not. -/
theorem nearsighted_names {f g : Names → ParseM β}
    (h : ∀ n n', n.Alike n' → Nearsighted u v (f n) (g n')) :
    Nearsighted u v (names >>= f) (names >>= g) :=
  ⟨forward_names.bind fun n => (h n n (.refl n)).forward,
    fun p q hpq hclear => (h _ _ hpq.names).same p q hpq hclear⟩

theorem nearsighted_setNames {n n' : Names} (hn : n.Alike n') :
    Nearsighted u v (setNames n) (setNames n') :=
  ⟨forward_setNames n, fun _ _ h _ => .ok (h.setNames hn)⟩

/-- What an action asks of a parser before it does anything is in sight, since it only moves
    on from there. -/
theorem nearsighted_get {f g : Parser → ParseM β} (hforward : Forward (get >>= f))
    (h : ∀ p q, Parser.Abreast u v p q → Parser.ClearOf u v p → Nearsighted u v (f p) (g q)) :
    Nearsighted u v (get >>= f) (get >>= g) := by
  refine ⟨hforward, fun p q hpq hclear => ?_⟩
  exact (h p q hpq (hclear.of_suffix (hforward.suffix p))).same p q hpq hclear

theorem nearsighted_advance : Nearsighted u v advance advance := by
  refine ⟨forward_advance, fun p q h hclear => ?_⟩
  have hp := hclear.of_suffix (forward_advance.suffix p)
  rcases p with ⟨_ | ⟨t, ts⟩, stop, n⟩
  · rcases h.of_nil hp with ⟨hahead, hstop⟩
    simp only [advance, hahead, hstop]
    exact .ok h
  · rcases h.of_cons hp with ⟨rest, hahead, hrest⟩
    simp only [advance, hahead]
    exact .ok hrest

theorem nearsighted_expect (kind : TokenKind) (expected : Expected) :
    Nearsighted u v (expect kind expected) (expect kind expected) := by
  refine ⟨forward_expect kind expected, fun p q h hclear => ?_⟩
  have hp := hclear.of_suffix ((forward_expect kind expected).suffix p)
  rcases p with ⟨_ | ⟨t, ts⟩, stop, n⟩
  · rcases h.of_nil hp with ⟨hahead, hstop⟩
    simp only [expect, hahead, hstop]
    exact .error h
  · rcases h.of_cons hp with ⟨rest, hahead, hrest⟩
    simp only [expect, hahead]
    split
    · exact .ok hrest
    · exact .error h

end ParseM

open ParseM

theorem nearsighted_acceptAssign : Nearsighted u v acceptAssign acceptAssign := by
  refine ⟨forward_acceptAssign, fun p q h hclear => ?_⟩
  have hp := hclear.of_suffix (forward_acceptAssign.suffix p)
  rcases p with ⟨_ | ⟨t, ts⟩, stop, n⟩
  · simp only [acceptAssign, (h.of_nil hp).1]
    exact .ok h
  · rcases h.of_cons hp with ⟨rest, hahead, hrest⟩
    simp only [acceptAssign, hahead]
    split
    · exact .ok hrest
    · exact .ok h

section Actions

variable (t : Token)

theorem nearsighted_unresolved {n n' : Names} (h : n.Alike n') :
    Nearsighted u v (unresolved n t) (unresolved n' t) := by
  unfold unresolved
  rw [h.scope]
  split <;> exact nearsighted_fail _ t

theorem nearsighted_resolve : Nearsighted u v (resolve t) (resolve t) := by
  refine nearsighted_names fun n n' h => ?_
  rw [h.isVariable, h.isFunction]
  exact .ite (nearsighted_acceptAssign.bind fun _ => nearsighted_pure _)
    (.ite (nearsighted_pure _) (nearsighted_unresolved t h))

theorem nearsighted_declaration : Nearsighted u v (declaration t) (declaration t) := by
  refine (nearsighted_expect _ _).bind fun name => nearsighted_names fun n n' h => ?_
  rw [h.isFree]
  exact .ite ((nearsighted_setNames (h.declare _)).bind fun _ => nearsighted_pure _)
    (nearsighted_fail _ name)

theorem nearsighted_assignment : Nearsighted u v (assignment t) (assignment t) := by
  refine (nearsighted_expect _ _).bind fun name => nearsighted_names fun n n' h => ?_
  rw [h.isVariable, h.isFunction]
  exact .ite (nearsighted_pure _) (.ite (nearsighted_fail _ name) (nearsighted_unresolved name h))

/-- The parameters of a header, by the recursion that reads them. -/
theorem parametersFrom_abreast {stop stop' : Token} {n n' : Names} (seen : List String)
    {ts ts' : List Token} (h : Parser.Abreast u v ⟨ts, stop, n⟩ ⟨ts', stop', n'⟩)
    (hclear : Parser.ClearOf u v ⟨(parametersFrom n stop seen ts).2, stop, n⟩) :
    ∃ rest, parametersFrom n' stop' seen ts' = ((parametersFrom n stop seen ts).1, rest) ∧
      Parser.Abreast u v ⟨(parametersFrom n stop seen ts).2, stop, n⟩ ⟨rest, stop', n'⟩ := by
  have hp : Parser.ClearOf u v ⟨ts, stop, n⟩ :=
    hclear.of_suffix (parametersFrom_suffix n stop seen ts)
  fun_induction parametersFrom n stop seen ts generalizing ts' with
  | case1 seen =>
      rcases h.of_nil hp with ⟨rfl, rfl⟩
      exact ⟨[], rfl, h⟩
  | case2 seen t ts hkind =>
      rcases h.of_cons hp with ⟨rest, rfl, hrest⟩
      refine ⟨rest, ?_, hrest⟩
      rw [parametersFrom.eq_def]
      simp only [hkind]
  | case3 seen t hkind =>
      rcases h.of_cons hp with ⟨rest, rfl, hrest⟩
      rcases hrest.of_nil hclear with ⟨rfl, rfl⟩
      refine ⟨[], ?_, hrest⟩
      simp only [parametersFrom, hkind]
  | case4 seen t hkind name rest hname hfree ih =>
      have hrest : Parser.ClearOf u v ⟨rest, stop, n⟩ :=
        hclear.of_suffix (parametersFrom_suffix n stop (seen ++ [name.text]) rest)
      rcases h.of_cons hp with ⟨_, rfl, hname'⟩
      rcases hname'.of_cons (hrest.of_suffix (List.suffix_cons name rest)) with ⟨rest', rfl, h'⟩
      rcases ih h' hclear hrest with ⟨left, hleft, habreast⟩
      refine ⟨left, ?_, habreast⟩
      simp only [parametersFrom, hkind, hname, h.names.isFreeLocal, hfree, if_true]
      exact hleft
  | case5 seen t hkind name rest hname hfree =>
      rcases h.of_cons hp with ⟨_, rfl, hname'⟩
      rcases hname'.of_cons (hclear.of_suffix (List.suffix_cons name rest)) with ⟨rest', rfl, h'⟩
      refine ⟨rest', ?_, h'⟩
      simp only [parametersFrom, hkind, hname, h.names.isFreeLocal, hfree, if_true]
      rfl
  | case6 seen t hkind name rest hname =>
      rcases h.of_cons hp with ⟨_, rfl, hname'⟩
      rcases hname'.of_cons hclear with ⟨rest', rfl, _⟩
      refine ⟨name :: rest', ?_, hname'⟩
      simp only [parametersFrom, hkind, hname, if_false]
  | case7 seen t ts hclose hvalue =>
      rcases h.of_cons hp with ⟨rest, rfl, _⟩
      refine ⟨t :: rest, ?_, h⟩
      rw [parametersFrom.eq_def]
      simp only []

theorem nearsighted_parameters : Nearsighted u v parameters parameters := by
  refine ⟨forward_parameters, fun p q h hclear => ?_⟩
  have hsame := parametersFrom_abreast [] h
  simp only [parameters] at hclear ⊢
  rcases hp : parametersFrom p.names p.stop [] p.ahead with ⟨result, left⟩
  rw [hp] at hclear hsame
  cases result with
  | ok ps =>
      rcases hsame hclear with ⟨rest, hq, hrest⟩
      rw [hq]
      exact .ok hrest
  | error e =>
      rcases hsame hclear with ⟨rest, hq, hrest⟩
      rw [hq]
      exact .error hrest

/-- Inside a function a bar is an error, and the two tokens after it decide which. -/
theorem nearsighted_header : Nearsighted u v (header t) (header t) := by
  refine nearsighted_get (forward_header t) fun p q h hclear => ?_
  rw [h.names.scope, h.headerAhead hclear]
  refine .ite (nearsighted_fail _ t) ((nearsighted_expect _ _).bind fun name =>
    nearsighted_names fun n n' hn => ?_)
  rw [hn.isGlobal]
  refine .ite (nearsighted_fail _ name) ((nearsighted_setNames (hn.declareFunction _)).bind
    fun _ => (nearsighted_expect _ _).bind fun _ => nearsighted_parameters.bind fun ps => ?_)
  exact nearsighted_names fun n n' hn =>
    (nearsighted_setNames (hn.enter _ ps)).bind fun _ => nearsighted_pure _

theorem nearsighted_returnPart (name : String) (ps : List String) (body : List Stmt)
    (loc : Location) :
    Nearsighted u v (returnPart name ps body loc) (returnPart name ps body loc) := by
  refine nearsighted_names fun n n' hn => (nearsighted_setNames hn.leave).bind fun _ =>
    nearsighted_advance.bind fun t => ?_
  rw [hn.locals]
  cases t.arity? with
  | none => exact nearsighted_fail _ t
  | some arity => exact (nearsighted_expect _ _).bind fun _ => nearsighted_pure _

theorem nearsighted_of_begin? {t : Token} {x : ParseM Progress} (h : begin? t = some x) :
    Nearsighted u v x x := by
  rcases t with ⟨kind, text, loc⟩
  cases kind with
  | integer n => exact Option.some.inj h ▸ nearsighted_pure _
  | boolean b => exact Option.some.inj h ▸ nearsighted_pure _
  | operator op => exact Option.some.inj h ▸ nearsighted_pure _
  | print => exact Option.some.inj h ▸ nearsighted_pure _
  | identifier => exact Option.some.inj h ▸ nearsighted_resolve _
  | bar => exact Option.some.inj h ▸ nearsighted_header _
  | keyword k =>
      cases k with
      | VARIABLE => exact Option.some.inj h ▸ nearsighted_declaration _
      | ASSIGN => exact Option.some.inj h ▸ nearsighted_assignment _
      | IF => exact Option.some.inj h ▸ nearsighted_pure _
      | BEGIN => exact Option.some.inj h ▸ nearsighted_pure _
      | ELSE | THEN | WHILE | REPEAT | VALUE | RETURN => nomatch h
  | openParen | closeParen | endOfInput => nomatch h

theorem nearsighted_of_close? {c : Construct} {loc : Location} {block : List Stmt} {t : Token}
    {x : ParseM Progress} (h : c.close? loc block t = some x) : Nearsighted u v x x := by
  unfold Construct.close? at h
  split at h
  · exact Option.some.inj h ▸ nearsighted_pure _
  · exact Option.some.inj h ▸ nearsighted_pure _
  · exact Option.some.inj h ▸ nearsighted_pure _
  · exact Option.some.inj h ▸ nearsighted_pure _
  · exact Option.some.inj h ▸ nearsighted_pure _
  · exact Option.some.inj h ▸ nearsighted_returnPart _ _ _ _
  · nomatch h

end Actions

variable {σ : Type}

/-- The same step, with parsers that are abreast. -/
inductive ReadingStep.Abreast (u v : Parser) : ReadingStep σ → ReadingStep σ → Prop where
  | more {p q : Parser} {enclosing : List OpenConstruct} {block : List Stmt} {seen : σ}
      (h : Parser.Abreast u v p q) :
      Abreast u v (.more ⟨p, enclosing, block, seen⟩) (.more ⟨q, enclosing, block, seen⟩)
  | done {p q : Parser} {result : Except ParseError (List Stmt)} {seen : σ}
      (h : Parser.Abreast u v p q) : Abreast u v (.done result p seen) (.done result q seen)

namespace Reading

variable {observe : σ → Event → σ} {p q : Parser} {enclosing : List OpenConstruct}
  {block : List Stmt} {seen : σ} {t : Token} {ts ts' : List Token}

theorem start_abreast (h : Parser.Abreast u v p q)
    (hts : Parser.Abreast u v { p with ahead := ts } { q with ahead := ts' })
    (hclear : Parser.ClearOf u v
      (start observe ⟨p, enclosing, block, seen⟩ t ts).parser) :
    ReadingStep.Abreast u v (start observe ⟨p, enclosing, block, seen⟩ t ts)
      (start observe ⟨q, enclosing, block, seen⟩ t ts') := by
  unfold start at hclear ⊢
  simp only at hclear ⊢
  cases hx : begin? t with
  | none => exact .done h
  | some x =>
      rw [hx] at hclear
      simp only at hclear ⊢
      have hsame := (nearsighted_of_begin? hx).same _ _ hts
      generalize x { p with ahead := ts } = rp, x { q with ahead := ts' } = rq at hsame hclear ⊢
      rcases rp with ⟨s | c, p₁⟩ | ⟨e, p₁⟩
      · cases hsame hclear with
        | ok h₁ => exact .more h₁
      · cases hsame hclear with
        | ok h₁ => exact .more h₁
      · cases hsame hclear with
        | error h₁ => exact .done h₁

theorem close_abreast {o : OpenConstruct} {outer : List OpenConstruct} {x : ParseM Progress}
    (hx : Nearsighted u v x x)
    (hts : Parser.Abreast u v { p with ahead := ts } { q with ahead := ts' })
    (hclear : Parser.ClearOf u v
      (close observe ⟨p, enclosing, block, seen⟩ o outer x ts).parser) :
    ReadingStep.Abreast u v (close observe ⟨p, enclosing, block, seen⟩ o outer x ts)
      (close observe ⟨q, enclosing, block, seen⟩ o outer x ts') := by
  unfold close at hclear ⊢
  simp only at hclear ⊢
  have hsame := hx.same _ _ hts
  generalize x { p with ahead := ts } = rp, x { q with ahead := ts' } = rq at hsame hclear ⊢
  rcases rp with ⟨s | c, p₁⟩ | ⟨e, p₁⟩
  · cases hsame hclear with
    | ok h₁ => exact .more h₁
  · cases hsame hclear with
    | ok h₁ => exact .more h₁
  · cases hsame hclear with
    | error h₁ => exact .done h₁

/-- Parsers that are abreast take the same step, if what differs is still out of sight after
    it. -/
theorem step_abreast (observe : σ → Event → σ) (r : Reading σ)
    (h : Parser.Abreast u v r.parser q)
    (hclear : Parser.ClearOf u v (r.step observe).parser) :
    ReadingStep.Abreast u v (r.step observe) (step observe { r with parser := q }) := by
  have hp := hclear.of_suffix (step_forward observe r).ahead
  rcases r with ⟨p, enclosing, block, seen⟩
  rcases p with ⟨_ | ⟨t, ts⟩, stop, n⟩
  · rcases q with ⟨ts', stop', n'⟩
    rcases h.of_nil hp with ⟨rfl, rfl⟩
    cases enclosing with
    | nil => exact .done h
    | cons o outer => exact .done h
  · rcases q with ⟨_, stop', n'⟩
    rcases h.of_cons hp with ⟨ts', rfl, hts⟩
    cases enclosing with
    | nil => exact start_abreast h hts hclear
    | cons o outer =>
        simp only [step] at hclear ⊢
        cases hx : o.construct.close? o.opener.loc block.reverse t with
        | none =>
            rw [hx] at hclear
            exact start_abreast h hts hclear
        | some x =>
            rw [hx] at hclear
            exact close_abreast (nearsighted_of_close? hx) hts hclear

/-- Parsers that are abreast make the same parse, if what differs is still out of sight where
    it ends. -/
theorem run_abreast (observe : σ → Event → σ) (r : Reading σ)
    (h : Parser.Abreast u v r.parser q)
    (hclear : Parser.ClearOf u v (r.run observe).2.1) :
    ∃ q', run observe { r with parser := q } = ((r.run observe).1, q', (r.run observe).2.2) ∧
      Parser.Abreast u v (r.run observe).2.1 q' := by
  fun_induction run observe r generalizing q with
  | case1 r s hstep ih =>
      have hsame := step_abreast observe r h
      generalize hq : step observe { r with parser := q } = step at hsame
      rw [hstep] at hsame
      -- The parse goes on from here, so what differs is out of sight here too.
      cases hsame (hclear.of_suffix (run_forward observe s).ahead) with
      | more hs =>
          rcases ih hs hclear with ⟨q', hrun, hq'⟩
          exact ⟨q', (run_of_step hq).trans hrun, hq'⟩
  | case2 r result p seen hstep =>
      have hsame := step_abreast observe r h
      generalize hq : step observe { r with parser := q } = step at hsame
      rw [hstep] at hsame
      cases hsame hclear with
      | done hp => exact ⟨_, run_of_done hq, hp⟩

end Reading

/-- Tokens that agree at the first indices have an initial part in common. -/
theorem take_prefix_of_agree {ts us : List Token} {k : Nat}
    (h : ∀ i, i < k → i < ts.length → us[i]? = ts[i]?) : ts.take k <+: us := by
  rw [List.prefix_iff_eq_take, List.length_take]
  refine List.ext_getElem? fun i => ?_
  by_cases hi : i < min k ts.length
  · rw [List.getElem?_take_of_lt (by omega), List.getElem?_take_of_lt hi, h i (by omega) (by omega)]
  · rw [List.getElem?_eq_none (by rw [List.length_take]; omega),
      List.getElem?_eq_none (by rw [List.length_take]; omega)]

/-- A parser at the start of tokens of which an end is known. -/
theorem ofTokens_of_withEnd {us before rest : List Token} {e : Token}
    (h : withEnd us = before ++ e :: rest) (hbefore : ∀ t ∈ before, (!t.isEnd) = true)
    (he : e.isEnd = true) :
    (Parser.ofTokens us).ahead = before ∧ (Parser.ofTokens us).stop = e := by
  have hahead : (Parser.ofTokens us).ahead = before := by
    rw [← Parser.takeWhile_withEnd, h, List.takeWhile_append_of_pos hbefore, List.takeWhile_cons,
      he]
    exact List.append_nil _
  rcases Parser.exists_withEnd us with ⟨rest', hrest'⟩
  rw [hahead, h] at hrest'
  exact ⟨hahead, (List.cons.inj (List.append_cancel_left hrest')).1.symm⟩

/-- What differs is put where the tokens in common end. No parser that has come less far than
    two tokens before sees it. -/
theorem exists_abreast {ts us : List Token} {k : Nat}
    (hcommon : (withEnd ts).take (k + 2) <+: withEnd us)
    (hheaders : ∀ x, x ∈ headersOf us ↔ x ∈ headersOf ts) :
    ∃ u v, Parser.Abreast u v (.ofTokens ts) (.ofTokens us) ∧
      ∀ p : Parser, p.Within (withEnd ts) → p.position (withEnd ts) ≤ k →
        Parser.ClearOf u v p := by
  rcases Parser.exists_withEnd ts with ⟨rest, hts⟩
  have hnot : ∀ t ∈ (Parser.ofTokens ts).ahead, (!t.isEnd) = true :=
    List.all_eq_true.1 List.all_takeWhile
  have hnames : (Parser.ofTokens ts).names.Alike (Parser.ofTokens us).names :=
    .ofHeaders hheaders
  by_cases hk : k + 2 ≤ (Parser.ofTokens ts).ahead.length
  · -- There are tokens beyond those in common, and none of the latter is an end.
    rw [hts, List.take_append_of_le_length hk] at hcommon
    rcases hcommon with ⟨tail, htail⟩
    have hus : (Parser.ofTokens us).ahead =
        (Parser.ofTokens ts).ahead.take (k + 2) ++ tail.takeWhile fun t => !t.isEnd := by
      rw [← Parser.takeWhile_withEnd us, ← htail]
      exact List.takeWhile_append_of_pos fun t ht => hnot t (List.mem_of_mem_take ht)
    refine ⟨{ Parser.ofTokens ts with ahead := (Parser.ofTokens ts).ahead.drop (k + 2) },
      { Parser.ofTokens us with ahead := tail.takeWhile fun t => !t.isEnd },
      ⟨⟨_, (List.take_append_drop (k + 2) _).symm, hus⟩, rfl, rfl, hnames⟩, ?_⟩
    intro p hp hle
    have hposition := hp.position_add
    rw [Parser.takeWhile_withEnd] at hposition
    refine .inl ?_
    rw [List.length_drop]
    omega
  · -- All tokens are in common, and so is their end.
    have hall : (Parser.ofTokens ts).ahead ++ [(Parser.ofTokens ts).stop] <+: withEnd us := by
      refine (List.prefix_take_iff.2 ⟨⟨rest, ?_⟩, ?_⟩).trans hcommon
      · rw [hts, List.append_assoc, List.singleton_append]
      · rw [List.length_append, List.length_singleton]
        omega
    rcases hall with ⟨tail, htail⟩
    rw [List.append_assoc, List.singleton_append] at htail
    rcases ofTokens_of_withEnd htail.symm hnot (Parser.isEnd_stop ts) with ⟨hahead, hstop⟩
    refine ⟨{ Parser.ofTokens ts with ahead := [] }, { Parser.ofTokens us with ahead := [] },
      ⟨⟨(Parser.ofTokens ts).ahead, ?_, ?_⟩, rfl, rfl, hnames⟩, ?_⟩
    · exact (List.append_nil _).symm
    · rw [hahead, List.append_nil]
    · exact fun p _ _ => .inr ⟨rfl, rfl, hstop.symm⟩

theorem position_of_abreast {ts us : List Token} {p q : Parser}
    (hstart : Parser.Abreast u v (.ofTokens ts) (.ofTokens us)) (h : Parser.Abreast u v p q) :
    q.position (withEnd us) = p.position (withEnd ts) := by
  rcases hstart.ahead with ⟨common, hts, hus⟩
  rcases h.ahead with ⟨left, hp, hq⟩
  rw [Parser.position, Parser.position, Parser.takeWhile_withEnd, Parser.takeWhile_withEnd, hts,
    hus, hp, hq]
  simp only [List.length_append]
  omega

/-- A parse error is decided by what was read and two tokens more. Let the first call on some
    tokens, completed with an end, fail and leave the parser at some position. The first call on
    any other tokens, completed in the same way, that are the same at this position, at the next
    one and at all before, as far as the first ones go, and that have headers of the same
    functions, fails with the same error and leaves the parser at the same position. -/
theorem parse_error_of_agree (ts us : List Token) (e : ParseError) (q : Parser)
    (herror : (Parser.ofTokens ts).parse = (.error e, q))
    (hagree : ∀ i, i ≤ q.position (withEnd ts) + 1 → i < (withEnd ts).length →
      (withEnd us)[i]? = (withEnd ts)[i]?)
    (hheaders : ∀ x, x ∈ headersOf us ↔ x ∈ headersOf ts) :
    ∃ q', (Parser.ofTokens us).parse = (.error e, q') ∧
      q'.position (withEnd us) = q.position (withEnd ts) := by
  have hcommon : (withEnd ts).take (q.position (withEnd ts) + 2) <+: withEnd us :=
    take_prefix_of_agree fun i hi => hagree i (by omega)
  rcases exists_abreast hcommon hheaders with ⟨u, v, hstart, hclear⟩
  rw [Parser.parse_eq] at herror
  rcases hrun : (Reading.ofParser (.ofTokens ts)).run unobserved with ⟨_ | ss, p, seen⟩
  · rw [hrun] at herror
    cases herror
    have hforward := Reading.run_forward unobserved (.ofParser (.ofTokens ts))
    have habreast := Reading.run_abreast unobserved (.ofParser (.ofTokens ts)) hstart
    rw [hrun] at hforward habreast
    have hp := hclear p ((Parser.within_ofTokens ts).of_further hforward) (Nat.le_refl _)
    rcases habreast hp with ⟨q', hrun', hq'⟩
    refine ⟨q', ?_, position_of_abreast hstart hq'⟩
    have hus : (Reading.ofParser (.ofTokens us)).run unobserved = (.error e, q', ()) := hrun'
    rw [Parser.parse_eq, hus]
    rfl
  · rw [hrun] at herror
    cases herror

/-- The header of a function, and in its body that of another one. -/
def innerHeader : List Token :=
  [⟨.bar, "|", ⟨1, 1⟩⟩, ⟨.identifier, "F", ⟨1, 3⟩⟩, ⟨.openParen, "(", ⟨1, 5⟩⟩,
    ⟨.closeParen, ")", ⟨1, 7⟩⟩, ⟨.bar, "|", ⟨2, 3⟩⟩, ⟨.identifier, "G", ⟨2, 5⟩⟩,
    ⟨.openParen, "(", ⟨2, 7⟩⟩]

/-- The same, and once more a header of the first function. -/
def repeatedHeader : List Token :=
  innerHeader ++ [⟨.closeParen, ")", ⟨2, 9⟩⟩, ⟨.bar, "|", ⟨3, 1⟩⟩, ⟨.identifier, "F", ⟨3, 3⟩⟩,
    ⟨.openParen, "(", ⟨3, 5⟩⟩]

/-- The inner header is an error at its bar, after which two more tokens have been looked at,
    whether the tokens end there or go on. -/
theorem parse_error_innerHeader :
    ∃ e q q', e = ⟨.unexpected .innerStatement, ⟨.bar, "|", ⟨2, 3⟩⟩⟩ ∧
      (Parser.ofTokens innerHeader).parse = (.error e, q) ∧
      q.position (withEnd innerHeader) = 5 ∧
      (Parser.ofTokens repeatedHeader).parse = (.error e, q') ∧
      q'.position (withEnd repeatedHeader) = 5 := by
  have hrun : (Reading.ofParser (.ofTokens innerHeader)).run unobserved =
      (.error ⟨.unexpected .innerStatement, ⟨.bar, "|", ⟨2, 3⟩⟩⟩,
        ⟨innerHeader.drop 5, .endAt ⟨2, 7⟩, ⟨["F", "G"], [], ["F"], [], some ⟨"F", [], []⟩⟩⟩, ()) :=
    (Reading.run_of_step rfl).trans (Reading.run_of_done rfl)
  have hparse := Parser.parse_eq (.ofTokens innerHeader)
  rw [hrun] at hparse
  have hheaders : ∀ x, x ∈ headersOf repeatedHeader ↔ x ∈ headersOf innerHeader := by
    intro x
    change x ∈ ["F", "G", "F"] ↔ x ∈ ["F", "G"]
    grind
  rcases parse_error_of_agree innerHeader repeatedHeader _ _ hparse (by decide) hheaders with
    ⟨q', hq', hposition⟩
  exact ⟨_, _, q', rfl, hparse, rfl, hq', hposition⟩

end StackLang
