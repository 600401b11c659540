import StackLang.Proofs.Declared
import StackLang.Proofs.Derivation
import StackLang.Proofs.Lexing

/-!
# Positions

A location tells which statement of a text is meant.

Walking over a text only leads forward: every character moves the place to the right or to the
next line, so of two places the one that comes first in the text is on an earlier line, or
further left on the same one. Words do not overlap and are not empty, so their places increase
strictly, and those of the tokens are theirs. A statement has the place of its first token.
Read in pre-order, the statements of a program thus have some of the places of its tokens, in
the same order and without repetition: `pairwise_preorder_of_compile`. No two statements share
a place, whatever encloses them.

## Main definitions

* `Location.Before`: A place comes before another one.

## Theorems

* `Location.before_afterAll`: Walking over a text leads forward.
* `Laid.pairwise`: The places of the words of a text increase.
* `pairwise_of_tokenize`: So do those of its tokens.
* `sublist_of_reads`: The places of statements are among those of their tokens.
* `pairwise_preorder_of_compile`: The places of the statements of a program increase.
-/

namespace StackLang

namespace Location

/-- The place `l` comes before `k`: on an earlier line, or further left on the same line. -/
def Before (l k : Location) : Prop := l.line < k.line ∨ l.line = k.line ∧ l.column < k.column

instance (l k : Location) : Decidable (l.Before k) :=
  inferInstanceAs (Decidable (l.line < k.line ∨ l.line = k.line ∧ l.column < k.column))

variable {k l m : Location}

theorem Before.trans (h : k.Before l) (h' : l.Before m) : k.Before m := by
  unfold Before at h h' ⊢
  omega

theorem Before.ne (h : k.Before l) : k ≠ l := by
  rintro rfl
  unfold Before at h
  omega

theorem before_after (l : Location) (c : Char) : l.Before (l.after c) := by
  unfold after
  by_cases hc : c = '\n'
  · rw [if_pos hc]
    exact .inl (Nat.lt_succ_self _)
  · rw [if_neg hc]
    exact .inr ⟨rfl, Nat.lt_succ_self _⟩

/-- Walking over a text that is not empty leads forward. -/
theorem before_afterAll (l : Location) (c : Char) (cs : List Char) :
    l.Before (l.afterAll (c :: cs)) := by
  induction cs generalizing l c with
  | nil => exact before_after l c
  | cons d cs ih => exact (before_after l c).trans (ih (l.after c) d)

theorem afterAll_eq_or_before (l : Location) (cs : List Char) :
    l.afterAll cs = l ∨ l.Before (l.afterAll cs) := by
  cases cs with
  | nil => exact .inl rfl
  | cons c cs => exact .inr (before_afterAll l c cs)

end Location

section Words

/-- No word stands before the text it belongs to, and the places of the words increase. -/
theorem Laid.pairwise {l : Location} {cs : List Char} {text : ScannedText} (h : Laid l cs text) :
    (∀ w ∈ text.words, w.loc = l ∨ l.Before w.loc) ∧
      text.words.Pairwise fun v w => v.loc.Before w.loc := by
  induction h with
  | last hg => exact ⟨fun w hw => absurd hw List.not_mem_nil, .nil⟩
  | @word l g cs rest c text hg hc hcs hend hrest ih =>
      rcases ih with ⟨hlater, hpairwise⟩
      -- The words that follow stand after this one, which has a first character at least.
      have hfirst : (l.afterAll g).Before (l.afterAll (g ++ c :: cs)) := by
        rw [Location.afterAll_append]
        exact Location.before_afterAll _ c cs
      have hrest : ∀ w ∈ text.words, (l.afterAll g).Before w.loc := by
        intro w hw
        rcases hlater w hw with heq | hbefore
        · rw [heq]
          exact hfirst
        · exact hfirst.trans hbefore
      have hstart := Location.afterAll_eq_or_before l g
      refine ⟨List.forall_mem_cons.2 ⟨hstart, ?_⟩, .cons hrest hpairwise⟩
      intro w hw
      refine .inr ?_
      rcases hstart with heq | hbefore
      · rw [← heq]
        exact hrest w hw
      · exact hbefore.trans (hrest w hw)

/-- Tokens stand where their words do. -/
theorem map_loc_of_ofWord {ws : List Word} {ts : List Token}
    (h : List.Forall₂ (fun w t => Token.ofWord w = .ok t) ws ts) :
    ts.map Token.loc = ws.map Word.loc := by
  induction h with
  | nil => rfl
  | cons hw _ ih => rw [List.map_cons, List.map_cons, ih, (Token.ofWord_eq_ok_iff.1 hw).2.2]

/-- The places of the tokens of a text increase, the end of the text apart. -/
theorem pairwise_of_tokenize {source : String} {ts : List Token} {finish : Location}
    (h : tokenize source = .ok (ts ++ [.endAt finish])) :
    (ts.map Token.loc).Pairwise Location.Before := by
  have hlaid : Laid .start source.toList (wordsOf source) := laid_iff.2 rfl
  rcases hread : readWords (wordsOf source).finish (wordsOf source).words with ⟨result, rest⟩
  have hresult : (readWords (wordsOf source).finish (wordsOf source).words).1 =
      .ok (ts ++ [.endAt finish]) := h
  rw [hread] at hresult
  cases hresult
  rcases readWords_eq_ok_iff.1 hread with ⟨_, us, htokens, hus⟩
  cases (List.append_inj' htokens rfl).1
  rw [map_loc_of_ofWord hus, List.pairwise_map]
  exact hlaid.pairwise.2

end Words

section Statements

variable {n n' : Names} {ts rest : List Token}

/-- What follows a simple statement follows its place. -/
theorem sublist_of_simple {s : Stmt} (h : Simple n ts s n' rest) :
    (s.loc :: rest.map Token.loc).Sublist (ts.map Token.loc) := by
  cases h with
  | integer | boolean | operator | print | read | call => exact List.Sublist.refl _
  | assignAfter | declare | assign => exact (List.sublist_cons_self _ _).cons_cons _

theorem sublist_of_parameters {seen ps : List String} (h : Parameters n seen ts ps rest) :
    (rest.map Token.loc).Sublist (ts.map Token.loc) := by
  induction h with
  | close ht => exact List.sublist_cons_self _ _
  | value ht hx hfree _ ih => exact (ih.cons _).cons _

/-- What is read after a block can be put after the places of the block. -/
theorem sublist_after {before inner after outer : List Location} {e : Token}
    (h : (before ++ e.loc :: inner).Sublist outer) (h' : after.Sublist inner) :
    (before ++ after).Sublist outer :=
  ((h'.cons e.loc).append_left before).trans h

/-- The places of statements in pre-order, and those of the tokens left over, are among the
    places of the tokens they have been read from. -/
theorem sublist_of_reads {ss : List Stmt} (h : Reads n ts ss n' rest) :
    ((preorder true ss).map Stmt.loc ++ rest.map Token.loc).Sublist (ts.map Token.loc) := by
  induction h with
  | nil => exact List.Sublist.refl _
  | simple hs _ ih =>
      rw [preorder_cons, enclosed_of_simple hs, List.nil_append]
      exact (ih.cons_cons _).trans (sublist_of_simple hs)
  | ifThen ht _ he _ ihblock ihss =>
      rw [preorder_cons, Stmt.enclosed, List.map_cons, List.map_append, List.cons_append,
        List.append_assoc]
      exact (sublist_after ihblock ihss).cons_cons _
  | ifElse ht _ he _ he' _ ihblock ihother ihss =>
      rw [preorder_cons, Stmt.enclosed, List.map_cons, List.map_append, List.map_append,
        List.cons_append, List.append_assoc, List.append_assoc]
      exact (sublist_after ihblock (sublist_after ihother ihss)).cons_cons _
  | loop ht _ he _ he' _ ihcondition ihbody ihss =>
      rw [preorder_cons, Stmt.enclosed, List.map_cons, List.map_append, List.map_append,
        List.cons_append, List.append_assoc, List.append_assoc]
      exact (sublist_after ihcondition (sublist_after ihbody ihss)).cons_cons _
  | function hscope hbar hname hfree hparen hps hbody he hcount hbar' hss ihbody ihss =>
      rw [preorder_cons, Stmt.enclosed, if_pos rfl, List.map_cons, List.map_append,
        List.cons_append, List.append_assoc]
      -- Between the bar and the body there are the name, a parenthesis and the parameters.
      have hafter := sublist_after ihbody ((ihss.cons _).cons _)
      exact (((hafter.trans (sublist_of_parameters hps)).cons _).cons _).cons_cons _

end Statements

/-- In pre-order the places of the statements of a compiled program increase strictly. -/
theorem pairwise_preorder_of_compile {source : String} {p : Program}
    (h : compile source = .ok p) :
    (preorder true p.statements).Pairwise fun s t => s.loc.Before t.loc := by
  rcases reads_of_compile h with ⟨ts, finish, n', htokens, hreads, _⟩
  have hsublist := sublist_of_reads hreads
  rw [List.map_nil, List.append_nil] at hsublist
  rw [← List.pairwise_map]
  exact (pairwise_of_tokenize htokens).sublist hsublist

end StackLang
