import Mathlib.Data.List.TakeWhile
import StackLang.Proofs.Acceptance

/-!
# Progress

A parser goes through its tokens from left to right, and never past their end.

A parser does not count. It holds the tokens that are ahead, so its position among all
tokens is what is missing in front of them: `Parser.position`. That this number makes sense
is the invariant: what is ahead is an end part of the tokens before the first end, and that
end follows it. Every action moves forward in this sense, so every step of a parse does, and
every parse, whether it succeeds or fails. A parser that has failed can be asked again, and
goes on from where it is with the names it has; the invariant does not mention those, so it
holds in all calls alike.

The position of a parser is then the index of a token, the one that is looked at next, and
the end has never been consumed. A step that does not end a parse consumes a token, which
bounds the number of steps; a statement takes at least one step, so it consumes a token as
well. And a parse succeeds only if nothing is ahead, so there is nothing left for a later
one.

## Main definitions

* `withEnd`: The tokens as a parser has them.
* `Parser.position`: How many tokens have been consumed.
* `Parser.after`: A parser after so many calls.
* `Reading.advance`: The state of a parse after so many steps.
* `Reading.Completes`: A statement has been read between two states of a parse.
* `Parser.Within`: A parser stands among the given tokens.
* `Parser.Progresses`: What can be said of a call.

## Theorems

* `Reading.step_forward`: A step moves forward.
* `Reading.exists_advance`: A parse ends after as many steps as there are tokens at most.
* `Parser.Within.position_lt`, `Parser.Within.next_eq`, `Parser.Within.not_isEnd`: Where a
  parser stands.
* `Parser.after_of_ok`: After a success nothing is left.
* `progresses_after`: All calls on any tokens make progress.
-/

namespace StackLang

/-- The tokens as a parser has them: with an end, if they have none at their end. -/
def withEnd (ts : List Token) : List Token :=
  if ts.getLast?.any Token.isEnd then ts else ts ++ [.endAt (lastLocation ts)]

namespace Parser

/-- The token that is looked at next, which is the end where no other is ahead. -/
def next (p : Parser) : Token := p.ahead.headD p.stop

/-- How many of the given tokens have been consumed. -/
def position (tokens : List Token) (p : Parser) : Nat :=
  (tokens.takeWhile fun t => !t.isEnd).length - p.ahead.length

/-- The parser after so many calls, whatever they have returned. -/
def after (p : Parser) : Nat → Parser
  | 0 => p
  | n + 1 => (p.after n).parse.2

/-- What a call returns, and the parser it leaves, from the end of its last step. -/
def conclude : Except ParseError (List Stmt) → Parser → Except ParseError Program × Parser
  | .error e, q => (.error e, q)
  | .ok ss, q => (.ok ⟨ss, q.names.pending⟩, { q with names := q.names.release })

end Parser

variable {σ : Type}

/-- The parser that a step leaves. -/
def ReadingStep.parser : ReadingStep σ → Parser
  | .more r => r.parser
  | .done _ p _ => p

/-- The observer that sees nothing. -/
def unobserved : Unit → Event → Unit := fun _ _ => ()

namespace Reading

/-- The state of a parse at its start. -/
def ofParser (p : Parser) : Reading Unit := ⟨p, [], [], ()⟩

/-- The state of a parse after exactly `n` steps, or `none` if it ends before. -/
def advance (observe : σ → Event → σ) : Nat → Reading σ → Option (Reading σ)
  | 0, r => some r
  | n + 1, r =>
      match r.step observe with
      | .more s => advance observe n s
      | .done _ _ _ => none

/-- From `r` on the statement `s` is read, up to `r'`: the block that is being read has it in
    addition, and the open constructs are the same. -/
def Completes (observe : σ → Event → σ) (r : Reading σ) (s : Stmt) (r' : Reading σ) : Prop :=
  (∃ n, r.advance observe n = some r') ∧ r'.enclosing = r.enclosing ∧ r'.block = s :: r.block

end Reading

/-- One parser is further than another: less is ahead, up to the same end. -/
structure Parser.Further (p q : Parser) : Prop where
  ahead : q.ahead <:+ p.ahead
  stop : q.stop = p.stop

theorem Parser.Further.refl (p : Parser) : p.Further p := ⟨List.suffix_refl _, rfl⟩

theorem Parser.Further.trans {p q r : Parser} (h : p.Further q) (h' : q.Further r) :
    p.Further r :=
  ⟨h'.ahead.trans h.ahead, h'.stop.trans h.stop⟩

namespace Reading

variable {observe : σ → Event → σ} {r s r' : Reading σ} {t : Token} {ts : List Token}

theorem start_forward (h : r.parser.ahead = t :: ts) :
    r.parser.Further (r.start observe t ts).parser := by
  have hts : r.parser.Further { r.parser with ahead := ts } := ⟨h ▸ List.suffix_cons t ts, rfl⟩
  unfold start
  simp only []
  cases hx : begin? t with
  | none => exact .refl _
  | some x =>
      have hforward := begin?_forward hx { r.parser with ahead := ts }
      simp only []
      cases hp : x { r.parser with ahead := ts } with
      | error e q =>
          rw [hp] at hforward
          exact hts.trans ⟨hforward.1, hforward.2⟩
      | ok progress q =>
          rw [hp] at hforward
          cases progress <;> exact hts.trans ⟨hforward.1, hforward.2⟩

theorem close_forward {o : OpenConstruct} {outer : List OpenConstruct} {x : ParseM Progress}
    (h : r.parser.ahead = t :: ts) (hx : ParseM.Forward x) :
    r.parser.Further (r.close observe o outer x ts).parser := by
  have hts : r.parser.Further { r.parser with ahead := ts } := ⟨h ▸ List.suffix_cons t ts, rfl⟩
  have hforward := hx { r.parser with ahead := ts }
  unfold close
  cases hp : x { r.parser with ahead := ts } with
  | error e q =>
      rw [hp] at hforward
      exact hts.trans ⟨hforward.1, hforward.2⟩
  | ok progress q =>
      rw [hp] at hforward
      cases progress <;> exact hts.trans ⟨hforward.1, hforward.2⟩

/-- A step moves forward, whether it goes on or ends the parse. -/
theorem step_forward (observe : σ → Event → σ) (r : Reading σ) :
    r.parser.Further (r.step observe).parser := by
  unfold step
  split
  next => exact .refl _
  next t ts _ hahead => exact start_forward hahead
  next => exact .refl _
  next o outer t ts _ hahead =>
      split
      next x hx => exact close_forward hahead (Construct.close?_forward hx)
      next => exact start_forward hahead

theorem run_forward (observe : σ → Event → σ) (r : Reading σ) :
    r.parser.Further (r.run observe).2.1 := by
  fun_induction run observe r with
  | case1 r s hstep ih =>
      have hforward := step_forward observe r
      rw [hstep] at hforward
      exact hforward.trans ih
  | case2 r result p seen hstep =>
      have hforward := step_forward observe r
      rw [hstep] at hforward
      exact hforward

theorem advance_forward {n : Nat} (h : r.advance observe n = some r') :
    r.parser.Further r'.parser := by
  induction n generalizing r with
  | zero => cases h; exact .refl _
  | succ n ih =>
      have hforward := step_forward observe r
      rw [advance] at h
      cases hstep : r.step observe with
      | more s =>
          rw [hstep] at h hforward
          exact hforward.trans (ih h)
      | done result p seen => rw [hstep] at h; cases h

/-- Every step that does not end a parse consumes a token. -/
theorem advance_le {n : Nat} (h : r.advance observe n = some r') :
    r'.parser.ahead.length + n ≤ r.parser.ahead.length := by
  induction n generalizing r with
  | zero => cases h; exact Nat.le_refl _
  | succ n ih =>
      rw [advance] at h
      cases hstep : r.step observe with
      | more s =>
          rw [hstep] at h
          have hlt := step_lt hstep
          have hle := ih h
          omega
      | done result p seen => rw [hstep] at h; cases h

/-- What remains of a parse from a later state is the same parse. -/
theorem run_of_advance {n : Nat} (h : r.advance observe n = some r') :
    r.run observe = r'.run observe := by
  induction n generalizing r with
  | zero => cases h; rfl
  | succ n ih =>
      rw [advance] at h
      cases hstep : r.step observe with
      | more s =>
          rw [hstep] at h
          exact (run_of_step hstep).trans (ih h)
      | done result p seen => rw [hstep] at h; cases h

/-- A parse ends, after no more steps than there are tokens ahead and a last one. -/
theorem exists_advance (observe : σ → Event → σ) (r : Reading σ) :
    ∃ n last, n ≤ r.parser.ahead.length ∧ r.advance observe n = some last ∧
      last.step observe =
        .done (r.run observe).1 (r.run observe).2.1 (r.run observe).2.2 := by
  fun_induction run observe r with
  | case1 r s hstep ih =>
      rcases ih with ⟨n, last, hn, hlast, hdone⟩
      refine ⟨n + 1, last, ?_, ?_, hdone⟩
      · have hlt := step_lt hstep
        omega
      · rw [advance, hstep]
        exact hlast
  | case2 r result p seen hstep => exact ⟨0, r, Nat.zero_le _, rfl, hstep⟩

/-- A statement takes at least one step. -/
theorem Completes.lt {stmt : Stmt} (h : Completes observe r stmt r') :
    r'.parser.ahead.length < r.parser.ahead.length := by
  rcases h with ⟨⟨n, hn⟩, _, hblock⟩
  cases n with
  | zero =>
      -- No block has itself and one statement more.
      cases hn
      exact absurd hblock.symm (List.cons_ne_self _ _)
  | succ n =>
      have hle := advance_le hn
      omega

-- A print statement is read in one step.
example : Completes unobserved (.ofParser (.ofTokens [⟨.print, "__PRINT__", .start⟩]))
    (.print .start) ⟨⟨[], .endAt .start, .ofHeaders []⟩, [], [.print .start], ()⟩ :=
  ⟨⟨1, rfl⟩, rfl, rfl⟩

/-- A parse succeeds only where nothing is ahead. -/
theorem ahead_of_run {ss : List Stmt} {p : Parser} {seen : σ}
    (h : r.run observe = (.ok ss, p, seen)) : p.ahead = [] := by
  fun_induction run observe r with
  | case1 r s hstep ih => exact ih h
  | case2 r result q seen' hstep =>
      cases h
      unfold step at hstep
      split at hstep
      next hahead => cases hstep; exact hahead
      next => exact absurd hstep (start_ne_ok r _ _)
      next => cases hstep
      next =>
          split at hstep
          next => exact absurd hstep (close_ne_ok r _ _ _ _)
          next => exact absurd hstep (start_ne_ok r _ _)

end Reading

namespace Parser

variable {p q : Parser} {tokens : List Token}

theorem parse_eq (p : Parser) :
    p.parse = conclude ((Reading.ofParser p).run unobserved).1
      ((Reading.ofParser p).run unobserved).2.1 := by
  have hrun : Reading.run unobserved (.ofParser p) = Reading.run (fun _ _ => ()) ⟨p, [], [], ()⟩ :=
    rfl
  rw [hrun]
  simp only [parse, parseWith]
  rcases Reading.run (fun _ _ => ()) ⟨p, [], [], ()⟩ with ⟨_ | _, q, seen⟩ <;> rfl

theorem further_conclude (result : Except ParseError (List Stmt)) (q : Parser) :
    q.Further (conclude result q).2 := by
  cases result <;> exact ⟨List.suffix_refl _, rfl⟩

/-- A call moves forward, whether it succeeds or fails. -/
theorem further_parse (p : Parser) : p.Further p.parse.2 := by
  rw [parse_eq]
  exact (Reading.run_forward unobserved (.ofParser p)).trans (further_conclude _ _)

theorem further_after (p : Parser) (n : Nat) : p.Further (p.after n) := by
  induction n with
  | zero => exact .refl _
  | succ n ih => exact ih.trans (further_parse _)

/-- The parser stands among the given tokens: what is ahead comes right before the first end. -/
structure Within (tokens : List Token) (p : Parser) : Prop where
  ahead : p.ahead <:+ tokens.takeWhile fun t => !t.isEnd
  stop : ∃ rest, tokens = tokens.takeWhile (fun t => !t.isEnd) ++ p.stop :: rest

theorem Within.of_further (h : p.Within tokens) (hq : p.Further q) : q.Within tokens := by
  refine ⟨hq.ahead.trans h.ahead, ?_⟩
  rw [hq.stop]
  exact h.stop

theorem isEnd_stop (ts : List Token) : (ofTokens ts).stop.isEnd = true := by
  rw [ofTokens]
  cases hfind : ts.find? Token.isEnd with
  | none => rfl
  | some e => exact List.find?_some hfind

/-- The tokens are what is ahead at first, the first end, and what is never reached. -/
theorem exists_withEnd (ts : List Token) :
    ∃ rest, withEnd ts = (ofTokens ts).ahead ++ (ofTokens ts).stop :: rest := by
  cases hfind : ts.find? Token.isEnd with
  | none =>
      -- Without an end all tokens are ahead, and one is supplied after them.
      have hnot : ∀ t ∈ ts, (!t.isEnd) = true := by
        intro t ht
        simpa using List.find?_eq_none.1 hfind t ht
      have hlast : ts.getLast?.any Token.isEnd = false := by
        cases hl : ts.getLast? with
        | none => rfl
        | some t => simpa using hnot t (List.mem_of_getLast? hl)
      refine ⟨[], ?_⟩
      simp only [withEnd, hlast, ofTokens, hfind, List.takeWhile_eq_self_iff.2 hnot,
        Option.getD_none, Bool.false_eq_true, if_false]
  | some e =>
      rcases List.find?_eq_some_iff_append.1 hfind with ⟨he, before, rest, rfl, hbefore⟩
      have hahead : (ofTokens (before ++ e :: rest)).ahead = before := by
        simp only [ofTokens, List.takeWhile_append_of_pos hbefore, List.takeWhile_cons, he,
          Bool.not_true, Bool.false_eq_true, if_false, List.append_nil]
      have hstop : (ofTokens (before ++ e :: rest)).stop = e := by
        simp only [ofTokens, hfind, Option.getD_some]
      rw [hahead, hstop, withEnd]
      split
      · exact ⟨rest, rfl⟩
      · exact ⟨rest ++ _, by rw [List.append_assoc, List.cons_append]⟩

/-- Completing the tokens does not change what is ahead at first. -/
theorem takeWhile_withEnd (ts : List Token) :
    (withEnd ts).takeWhile (fun t => !t.isEnd) = (ofTokens ts).ahead := by
  rcases exists_withEnd ts with ⟨rest, hrest⟩
  have hnot : ∀ t ∈ (ofTokens ts).ahead, (!t.isEnd) = true :=
    List.all_eq_true.1 List.all_takeWhile
  rw [hrest, List.takeWhile_append_of_pos hnot, List.takeWhile_cons, isEnd_stop]
  exact List.append_nil _

theorem within_ofTokens (ts : List Token) : (ofTokens ts).Within (withEnd ts) := by
  rcases exists_withEnd ts with ⟨rest, hrest⟩
  refine ⟨takeWhile_withEnd ts ▸ List.suffix_refl _, rest, ?_⟩
  rw [takeWhile_withEnd]
  exact hrest

/-- The tokens are those consumed, which contain no end, those ahead, the end, and what is never
    reached. -/
theorem Within.exists_split (h : p.Within tokens) :
    ∃ consumed rest, tokens = consumed ++ (p.ahead ++ p.stop :: rest) ∧
      consumed.length = p.position tokens ∧ ∀ t ∈ consumed, t.kind ≠ .endOfInput := by
  rcases h.ahead with ⟨consumed, hconsumed⟩
  rcases h.stop with ⟨rest, hrest⟩
  refine ⟨consumed, rest, ?_, ?_, ?_⟩
  · rw [← List.append_assoc, hconsumed]
    exact hrest
  · rw [position, ← hconsumed, List.length_append, Nat.add_sub_cancel]
  · intro t ht
    have hmem : t ∈ tokens.takeWhile fun t => !t.isEnd :=
      hconsumed ▸ List.mem_append_left _ ht
    simpa [Token.isEnd] using List.mem_takeWhile_imp hmem

/-- The token that is looked at next is the one at the parser's position. -/
theorem Within.next_eq (h : p.Within tokens) : tokens[p.position tokens]? = some p.next := by
  rcases h.exists_split with ⟨consumed, rest, htokens, hposition, _⟩
  rw [← hposition, htokens, List.getElem?_append_right (Nat.le_refl _), Nat.sub_self, next]
  cases p.ahead <;> rfl

theorem Within.position_lt (h : p.Within tokens) : p.position tokens < tokens.length :=
  (List.getElem?_eq_some_iff.1 h.next_eq).1

/-- An end of input is never consumed. -/
theorem Within.not_isEnd (h : p.Within tokens) {t : Token}
    (ht : t ∈ tokens.take (p.position tokens)) : t.kind ≠ .endOfInput := by
  rcases h.exists_split with ⟨consumed, rest, htokens, hposition, hconsumed⟩
  rw [← hposition, htokens, List.take_left] at ht
  exact hconsumed t ht

theorem Within.position_add (h : p.Within tokens) :
    p.position tokens + p.ahead.length = (tokens.takeWhile fun t => !t.isEnd).length := by
  rw [position, Nat.sub_add_cancel h.ahead.length_le]

/-- A parser from which nothing is left to be read gives an empty program, and stays as it is. -/
theorem parse_of_nil (hahead : p.ahead = []) (hpending : p.names.pending = []) :
    p.parse = (.ok ⟨[], []⟩, p) := by
  rcases p with ⟨ahead, stop, names⟩
  cases hahead
  have hrun : Reading.run unobserved (.ofParser ⟨[], stop, names⟩) =
      (.ok [], ⟨[], stop, names⟩, ()) := Reading.run_of_done rfl
  rw [parse_eq, hrun, conclude, hpending, Names.release, ← hpending]

/-- After a call that has succeeded nothing is left for later ones. -/
theorem after_of_ok {program : Program} {n : Nat} (h : (p.after n).parse.1 = .ok program) {m : Nat}
    (hm : n < m) : (p.after m).parse = (.ok ⟨[], []⟩, p.after m) := by
  induction m with
  | zero => exact absurd hm (Nat.not_lt_zero n)
  | succ m ih =>
      rcases Nat.lt_or_eq_of_le (Nat.le_of_lt_succ hm) with hlt | rfl
      · -- The call before has left the parser as it was.
        have hsame : p.after (m + 1) = p.after m := by rw [after, ih hlt]
        rw [hsame]
        exact ih hlt
      · rw [parse_eq] at h
        rcases hrun : Reading.run unobserved (.ofParser (p.after n)) with ⟨result, q, seen⟩
        rw [hrun] at h
        cases result with
        | error e => cases h
        | ok ss =>
            have hq : p.after (n + 1) = { q with names := q.names.release } := by
              rw [after, parse_eq, hrun]
              rfl
            have hahead : q.ahead = [] := Reading.ahead_of_run hrun
            rw [hq]
            exact parse_of_nil hahead rfl

/-- What can be said of a call on a parser among the given tokens. -/
structure Progresses (tokens : List Token) (p : Parser) : Prop where
  /-- The call ends, after no more steps than there are tokens and a last one. -/
  ends : ∃ n last result q, n ≤ tokens.length ∧
    (Reading.ofParser p).advance unobserved n = some last ∧
    last.step unobserved = .done result q () ∧ p.parse = conclude result q
  /-- At all times the parser's position is the index of a token, the next one. -/
  inBounds : ∀ n r, (Reading.ofParser p).advance unobserved n = some r →
    r.parser.position tokens < tokens.length ∧
      tokens[r.parser.position tokens]? = some r.parser.next
  /-- The position never decreases, and every step but the last increases it. -/
  forward : ∀ n r, (Reading.ofParser p).advance unobserved n = some r →
    p.position tokens + n ≤ r.parser.position tokens ∧
      r.parser.position tokens ≤ p.parse.2.position tokens
  /-- No end of input is ever consumed. -/
  keepsEnd : ∀ n r, (Reading.ofParser p).advance unobserved n = some r →
    ∀ t ∈ tokens.take (r.parser.position tokens), t.kind ≠ .endOfInput
  /-- A statement consumes a token. -/
  statement : ∀ n r s r', (Reading.ofParser p).advance unobserved n = some r →
    Reading.Completes unobserved r s r' → r.parser.position tokens < r'.parser.position tokens

theorem Within.progresses (h : p.Within tokens) : p.Progresses tokens := by
  have hwithin : ∀ n r, (Reading.ofParser p).advance unobserved n = some r →
      r.parser.Within tokens := fun n r hr => h.of_further (Reading.advance_forward hr)
  refine ⟨?_, ?_, ?_, ?_, ?_⟩
  · rcases Reading.exists_advance unobserved (.ofParser p) with ⟨n, last, hn, hlast, hdone⟩
    refine ⟨n, last, _, _, Nat.le_trans hn ?_, hlast, hdone, parse_eq p⟩
    exact Nat.le_trans h.ahead.length_le (List.takeWhile_sublist _).length_le
  · intro n r hr
    exact ⟨(hwithin n r hr).position_lt, (hwithin n r hr).next_eq⟩
  · intro n r hr
    have hle := Reading.advance_le hr
    have hp := h.position_add
    have hr' := (hwithin n r hr).position_add
    -- The rest of the call moves on from there.
    have hrest : r.parser.Further p.parse.2 := by
      rw [parse_eq, Reading.run_of_advance hr]
      exact (Reading.run_forward unobserved r).trans (further_conclude _ _)
    have hparse := (h.of_further (further_parse p)).position_add
    have hlength := hrest.ahead.length_le
    change r.parser.ahead.length + n ≤ p.ahead.length at hle
    omega
  · intro n r hr t ht
    exact (hwithin n r hr).not_isEnd ht
  · intro n r s r' hr hs
    have hlt := hs.lt
    have hr₁ := (hwithin n r hr).position_add
    rcases hs with ⟨⟨k, hk⟩, _, _⟩
    have hr₂ := ((hwithin n r hr).of_further (Reading.advance_forward hk)).position_add
    omega

end Parser

/-- Any number of calls on any tokens, with ends anywhere or nowhere among them, make progress:
    each of them ends, its steps move forward and stay within the tokens, no end is consumed and
    every statement consumes a token, whatever the calls before have returned. After a call that
    succeeds, all others return an empty program. -/
theorem progresses_after (ts : List Token) (n : Nat) :
    ((Parser.ofTokens ts).after n).Progresses (withEnd ts) ∧
      ∀ program, ((Parser.ofTokens ts).after n).parse.1 = .ok program →
        ∀ m, n < m → ((Parser.ofTokens ts).after m).parse.1 = .ok ⟨[], []⟩ := by
  constructor
  · exact ((Parser.within_ofTokens ts).of_further (Parser.further_after _ n)).progresses
  · intro program h m hm
    rw [Parser.after_of_ok h hm]

end StackLang
