import Mathlib.Order.Bounds.Defs
import StackLang.Proofs.Resumption

/-!
# The character to blame

A word that is no token by its shape is blamed at one character, and at the place where this
character stands.

A word is recognizable if it is a fixed spelling, a numeral however large, or an identifier. The
initial parts of a word are recognizable or not in no particular order: `==` is and `=` is not,
and so `==>` is good for two characters though it is not good for one. What counts is the
longest proper part that is recognizable, and nothing at all if there is none. It is shorter
than the word, so there is a character after it, and no longer part of the word would do:
`Longest.isGreatest`.

The place of that character is found by going to the right from where the word begins. This is
its place in the text because a word does not go over the end of a line:
`placeAfter_append_take`.

## Main definitions

* `Recognizable`: A word is a token by its shape alone.

## Theorems

* `recognizable_iff_exists_hasShape`: The recognizable words are those with a shape.
* `Longest.isGreatest`: The longest part is the greatest length of a recognizable one.
* `Decomposes.not_mem_feed`: Words do not go over the end of a line.
* `placeAfter_append_take`: Places inside of a word.
* `tokenize_of_not_recognizable`: The error of a word that is no token by its shape.
-/

namespace StackLang

/-- A word is a complete token by its shape alone: a fixed spelling, a numeral of any size or an
    identifier. -/
def Recognizable (w : List Char) : Prop :=
  (∃ kind, (String.ofList w, kind) ∈ fixedSpellings) ∨ (∃ n, Numeral w n) ∨ Identifier w

section Shapes

variable {w : List Char} {m : Nat}

/-- The order in which the shapes are tried does not matter to having one. -/
theorem recognizable_iff_exists_hasShape : Recognizable w ↔ ∃ s, HasShape w s := by
  by_cases hfixed : ∃ kind, (String.ofList w, kind) ∈ fixedSpellings
  · rcases hfixed with ⟨kind, hkind⟩
    exact ⟨fun _ => ⟨_, .fixed hkind⟩, fun _ => .inl ⟨kind, hkind⟩⟩
  · have hno := not_exists.1 hfixed
    constructor
    · rintro (h | ⟨n, hn⟩ | h)
      · exact absurd h hfixed
      · exact ⟨_, .integer hno hn⟩
      · exact ⟨_, .identifier hno (not_numeral_of_identifier h) h⟩
    · rintro ⟨s, h | ⟨_, h⟩ | ⟨_, _, h⟩⟩
      · exact .inl ⟨_, h⟩
      · exact .inr (.inl ⟨_, h⟩)
      · exact .inr (.inr h)

theorem recognizable_iff : Recognizable w ↔ (shape? w).isSome = true := by
  rw [recognizable_iff_exists_hasShape, Option.isSome_iff_exists]
  simp only [shape?_eq_some_iff]

instance : DecidablePred Recognizable := fun _ => decidable_of_iff _ recognizable_iff.symm

/-- The longest proper part with a shape is the greatest length of a recognizable one. -/
theorem Longest.isGreatest (h : Longest w m) :
    IsGreatest {k | k < w.length ∧ (k = 0 ∨ Recognizable (w.take k))} m := by
  constructor
  · refine ⟨h.lt, h.shaped.imp_right ?_⟩
    exact recognizable_iff_exists_hasShape.2
  · rintro k ⟨hlt, hk⟩
    rcases hk with rfl | hk
    · exact Nat.zero_le m
    · rcases recognizable_iff_exists_hasShape.1 hk with ⟨s, hs⟩
      by_contra hmk
      exact h.longest k (Nat.lt_of_not_le hmk) hlt s hs

/-- Beyond the longest proper part nothing is recognizable, if the whole word is not. -/
theorem Longest.not_recognizable (h : Longest w m) (hw : ¬ Recognizable w) {k : Nat}
    (hm : m < k) : ¬ Recognizable (w.take k) := by
  intro hr
  by_cases hlt : k < w.length
  · rcases recognizable_iff_exists_hasShape.1 hr with ⟨s, hs⟩
    exact h.longest k hm hlt s hs
  · have hwhole : w.take k = w := List.take_of_length_le (Nat.not_lt.1 hlt)
    rw [hwhole] at hr
    exact hw hr

end Shapes

section Places

variable {cs g w : List Char} {parts : List (List Char × List Char)}

theorem Decomposes.not_mem_feed (h : Decomposes cs g parts) : ∀ part ∈ parts, '\n' ∉ part.1 := by
  induction h with
  | last hg => exact fun part hpart => absurd hpart List.not_mem_nil
  | word hg hw hletters _ _ ih =>
      refine List.forall_mem_cons.2 ⟨?_, ih⟩
      intro hfeed
      -- A line feed is blank, so it is no letter.
      exact absurd (hletters '\n' hfeed) (by decide)

/-- Inside of a word only the column moves. -/
theorem placeAfter_append_take {m : Nat} (hw : '\n' ∉ w) (hm : m ≤ w.length) (front : List Char) :
    placeAfter (front ++ w.take m) = (placeAfter front).right m := by
  have htake : '\n' ∉ w.take m := fun hfeed => hw (List.mem_of_mem_take hfeed)
  rw [← afterAll_placeAfter, Location.afterAll_of_not_mem _ _ htake, List.length_take_of_le hm]

/-- The words of a text and their places are those of its parts. -/
theorem not_mem_feed_of_placed {before : List Char} {l : Location} (h : Decomposes cs g parts)
    (hmem : (w, l) ∈ placed before parts) : '\n' ∉ w := by
  have hword : w ∈ parts.map Prod.fst := by
    rw [← map_fst_placed before]
    exact List.mem_map_of_mem hmem
  rcases List.mem_map.1 hword with ⟨part, hpart, rfl⟩
  exact h.not_mem_feed part hpart

end Places

section Blame

variable {source : String} {lead w : List Char} {parts : List (List Char × List Char)}
  {l : Location}

/-- A word that is no token by its shape is blamed at the right character. Let the first bad word
    of a text be neither a fixed spelling, a numeral nor an identifier, and `m` the greatest
    length of a proper part of it that is, or zero. Then `m` is an index of the word, and the text
    gives an error about the character at this index, on the line of the word and `m` columns to
    the right of it. That is where the character stands in the text. No part that is longer than
    `m` is recognizable. -/
theorem tokenize_of_not_recognizable (h : Decomposes source.toList lead parts)
    (hfirst : (illegible (placed lead parts)).head? = some (w, l)) (hw : ¬ Recognizable w) :
    ∃ m c, IsGreatest {k | k < w.length ∧ (k = 0 ∨ Recognizable (w.take k))} m ∧
      w[m]? = some c ∧
      tokenize source = .error ⟨.invalidCharacter c, ⟨l.line, l.column + m⟩⟩ ∧
      (∃ front back, source.toList = front ++ (w ++ back) ∧ placeAfter front = l ∧
        source.toList = front ++ w.take m ++ c :: (w.drop (m + 1) ++ back) ∧
        placeAfter (front ++ w.take m) = ⟨l.line, l.column + m⟩) ∧
      ∀ k, m < k → k ≤ w.length → ¬ Recognizable (w.take k) := by
  have hzero : (illegible (placed lead parts))[0]? = some (w, l) := by
    rw [← List.head?_eq_getElem?]
    exact hfirst
  -- The first request to a reader of the text is the one that gives its tokens.
  rcases (resumes_between h []).errors 0 (w, l) hzero with
    ⟨front, back, e, htext, hplace, hmisread, hread⟩
  have htokenize : tokenize source = .error e := congrArg Prod.fst hread
  have hmem : (w, l) ∈ placed lead parts :=
    List.mem_of_mem_filter (List.mem_of_mem_head? hfirst)
  cases hmisread with
  | outOfRange hshape _ => exact absurd (recognizable_iff_exists_hasShape.2 ⟨_, hshape⟩) hw
  | @invalid m c _ hm hc =>
      have hword : w = w.take m ++ c :: w.drop (m + 1) := by
        rcases List.getElem?_eq_some_iff.1 hc with ⟨hlt, rfl⟩
        rw [List.getElem_cons_drop, List.take_append_drop]
      refine ⟨m, c, hm.isGreatest, hc, htokenize, ?_, fun k hk _ => hm.not_recognizable hw hk⟩
      refine ⟨front, back, htext, hplace.symm, ?_, ?_⟩
      · calc
          source.toList = front ++ (w ++ back) := htext
          _ = front ++ ((w.take m ++ c :: w.drop (m + 1)) ++ back) := by rw [← hword]
          _ = front ++ w.take m ++ c :: (w.drop (m + 1) ++ back) := by
            simp only [List.append_assoc, List.cons_append]
      · have hfeed := not_mem_feed_of_placed h hmem
        rw [placeAfter_append_take hfeed (Nat.le_of_lt hm.lt), ← hplace, Location.right]

/-- An arrow, after a comment with a bad word in it. Of the arrow two characters are
    recognizable, though one is not, and so its third character is to blame. -/
theorem tokenize_arrow :
    ¬ Recognizable ['=', '=', '>'] ∧ Recognizable ['=', '='] ∧ ¬ Recognizable ['='] ∧
      tokenize "7 # a$\n ==> a$" = .error ⟨.invalidCharacter '>', ⟨2, 4⟩⟩ := by
  -- The text is cut from its end: the last word, the arrow, and the number with its comment.
  have hlast : Decomposes [' ', 'a', '$'] [' '] [(['a', '$'], [])] :=
    .word (g := [' ']) (w := ['a', '$']) (.blank (by decide) .nil) (by decide)
      (List.all_eq_true.1 (by decide)) (.last (.closed .nil)) (by decide)
  have hcomment : Gap [' ', '#', ' ', 'a', '$', '\n', ' '] :=
    .blank (by decide) (@Gap.comment [' ', 'a', '$'] [' '] (by decide) (.blank (by decide) .nil))
  have harrow := Decomposes.word (w := ['=', '=', '>']) hcomment (by decide)
    (List.all_eq_true.1 (by decide)) hlast (by decide)
  have hcut : Decomposes "7 # a$\n ==> a$".toList []
      [(['7'], [' ', '#', ' ', 'a', '$', '\n', ' ']), (['=', '=', '>'], [' ']), (['a', '$'], [])] :=
    Decomposes.word (w := ['7']) .nil (by decide) (List.all_eq_true.1 (by decide)) harrow
      (by decide)
  have hw : ¬ Recognizable ['=', '=', '>'] := by decide +kernel
  have htwo : Recognizable ['=', '='] := by decide +kernel
  rcases tokenize_of_not_recognizable (l := ⟨2, 2⟩) hcut (by decide +kernel) hw with
    ⟨m, c, hm, hc, htokenize, _, _⟩
  have hgreatest : IsGreatest {k | k < 3 ∧ (k = 0 ∨ Recognizable (['=', '=', '>'].take k))} 2 :=
    ⟨⟨by decide, .inr htwo⟩, fun k hk => Nat.le_of_lt_succ hk.1⟩
  cases hm.unique hgreatest
  cases hc
  exact ⟨hw, htwo, by decide +kernel, htokenize⟩

end Blame

end StackLang
