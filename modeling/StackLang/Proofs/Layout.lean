import StackLang.Text.Word

/-!
# Layout

How a text is made of gaps and words, said without a scanner.

A gap is made of blank characters and comments. A comment takes all characters up to the
end of its line, so a word can follow a gap only if every comment in it has been ended by a
line feed: `Gap`. At the end of the text the last comment may be open: `LastGap`. A text is
laid out as words when gaps and words alternate and no word goes on in what follows it, and
the place of a word is the one after all that comes before: `Laid`. Every text is laid out
in exactly one way, and that is the way the scanner finds: `laid_iff`.

## Main definitions

* `Gap`: A gap that a word may follow.
* `LastGap`: A gap at the end of a text.
* `Laid`: A text is laid out as the given words.
* `Spells`: The words of a source text, without their places.

## Theorems

* `Laid.prepend`: A gap in front of a text.
* `scan_of_laid`: The scanner finds the words of a layout.
* `Laid.takeWhile`: A word in front of a text.
* `exists_laid`: Every text has a layout.
* `laid_iff`: The layout of a text is what the scanner finds.
-/

namespace StackLang

/-- A gap that a word may follow: blank characters, and comments that end with their
    line. -/
inductive Gap : List Char → Prop
  | nil : Gap []
  | blank {c : Char} {cs : List Char} (hc : isBlank c = true) (hcs : Gap cs) : Gap (c :: cs)
  | comment {body cs : List Char} (hbody : '\n' ∉ body) (hcs : Gap cs) :
      Gap ('#' :: (body ++ '\n' :: cs))

/-- A gap at the end of a text, where a comment may be open. -/
inductive LastGap : List Char → Prop
  | closed {g : List Char} (hg : Gap g) : LastGap g
  | comment {g body : List Char} (hg : Gap g) (hbody : '\n' ∉ body) : LastGap (g ++ '#' :: body)

/-- The text whose first character stands at `l` is laid out as the given words. -/
inductive Laid : Location → List Char → ScannedText → Prop
  | last {l : Location} {g : List Char} (hg : LastGap g) : Laid l g ⟨[], l.afterAll g⟩
  /-- A word goes on as long as there are letters. -/
  | word {l : Location} {g cs rest : List Char} {c : Char} {text : ScannedText} (hg : Gap g)
      (hc : isLetter c = true) (hcs : ∀ d ∈ cs, isLetter d = true)
      (hend : ∀ d ∈ rest.head?, isLetter d = false)
      (hrest : Laid (l.afterAll (g ++ c :: cs)) rest text) :
      Laid l (g ++ c :: (cs ++ rest)) (text.cons ⟨c, cs, l.afterAll g⟩)

/-- The words of a source text, wherever they stand. -/
def Spells (source : String) (ws : List (List Char)) : Prop :=
  ∃ text, Laid .start source.toList text ∧ text.words.map Word.letters = ws

theorem Gap.append {g h : List Char} (hg : Gap g) (hh : Gap h) : Gap (g ++ h) := by
  induction hg with
  | nil => exact hh
  | blank hc _ ih => exact .blank hc ih
  | @comment body cs hbody _ ih =>
      rw [List.cons_append, List.append_assoc, List.cons_append]
      exact .comment hbody ih

/-- A gap can be put in front of a text. -/
theorem Laid.prepend {l : Location} {g cs : List Char} {text : ScannedText} (hg : Gap g)
    (h : Laid (l.afterAll g) cs text) : Laid l (g ++ cs) text := by
  cases h with
  | last hlast =>
      rw [← Location.afterAll_append]
      refine .last ?_
      cases hlast with
      | closed hcs => exact .closed (hg.append hcs)
      | comment hcs hbody =>
          rw [← List.append_assoc]
          exact .comment (hg.append hcs) hbody
  | word hg' hc hcs hend hrest =>
      rw [← Location.afterAll_append] at hrest
      rw [← Location.afterAll_append, ← List.append_assoc]
      refine .word (hg.append hg') hc hcs hend ?_
      rw [List.append_assoc]
      exact hrest

section Scan

variable {l : Location} {c : Char} {g cs rest : List Char} {text : ScannedText}

theorem not_isBlank_of_isLetter (h : isLetter c = true) : isBlank c = false := by
  simp only [isLetter, Bool.and_eq_true, Bool.not_eq_true'] at h
  exact h.1

theorem ne_hash_of_isLetter (h : isLetter c = true) : c ≠ '#' := by
  simp only [isLetter, Bool.and_eq_true, bne_iff_ne] at h
  exact h.2

/-- A character that is no letter is blank or starts a comment. -/
theorem isBlank_or_eq_hash (h : isLetter c = false) : isBlank c = true ∨ c = '#' := by
  by_cases hc : isBlank c = true
  · exact .inl hc
  · simp only [isLetter, hc, Bool.not_false, Bool.true_and, bne_eq_false_iff_eq] at h
    exact .inr h

theorem scan_gap_blank (hc : isBlank c = true) :
    scan .gap l (c :: cs) = scan .gap (l.after c) cs := by
  rw [scan, if_pos hc]

theorem scan_gap_hash : scan .gap l ('#' :: cs) = scan .comment (l.after '#') cs := by
  rw [scan, if_neg (by decide), if_pos rfl]

theorem scan_gap_letter (hc : isLetter c = true) :
    scan .gap l (c :: cs) = scan (.word l c []) (l.after c) cs := by
  rw [scan, if_neg (by simp [not_isBlank_of_isLetter hc]), if_neg (ne_hash_of_isLetter hc)]

-- A blank character, and then a word of one letter.
example : scan .gap .start [' ', 'a'] = ⟨[⟨'a', [], ⟨1, 2⟩⟩], ⟨1, 3⟩⟩ := by cbv

/-- A comment up to its line feed. -/
theorem scan_comment (h : '\n' ∉ cs) :
    scan .comment l (cs ++ '\n' :: rest) = scan .gap (l.afterAll (cs ++ ['\n'])) rest := by
  induction cs generalizing l with
  | nil => rfl
  | cons c cs ih =>
      rw [List.mem_cons, not_or] at h
      rw [List.cons_append, scan, if_neg fun hc => h.1 hc.symm, ih h.2]
      rfl

/-- A comment up to the end of the text. -/
theorem scan_comment_last (h : '\n' ∉ cs) : scan .comment l cs = ⟨[], l.afterAll cs⟩ := by
  induction cs generalizing l with
  | nil => rfl
  | cons c cs ih =>
      rw [List.mem_cons, not_or] at h
      rw [scan, if_neg fun hc => h.1 hc.symm, ih h.2]
      rfl

theorem scan_gap (hg : Gap g) : scan .gap l (g ++ rest) = scan .gap (l.afterAll g) rest := by
  induction hg generalizing l with
  | nil => rfl
  | blank hc _ ih =>
      rw [List.cons_append, scan_gap_blank hc, ih]
      rfl
  | @comment body cs hbody _ ih =>
      rw [List.cons_append, List.append_assoc, List.cons_append, scan_gap_hash,
        scan_comment hbody, ih, Location.afterAll_cons, Location.afterAll_append,
        Location.afterAll_append, Location.afterAll_cons]
      rfl

theorem scan_lastGap (hg : LastGap g) : scan .gap l g = ⟨[], l.afterAll g⟩ := by
  cases hg with
  | closed hg =>
      have hscan : scan .gap l (g ++ []) = scan .gap (l.afterAll g) [] := scan_gap hg
      rw [List.append_nil] at hscan
      rw [hscan, scan]
  | comment hg hbody =>
      rw [scan_gap hg, scan_gap_hash, scan_comment_last hbody, Location.afterAll_append,
        Location.afterAll_cons]

/-- A word goes on up to the first character that is no letter, which belongs to the gap
    after it. -/
theorem scan_word {loc : Location} {first : Char} (latest : List Char)
    (hcs : ∀ d ∈ cs, isLetter d = true) (hend : ∀ d ∈ rest.head?, isLetter d = false) :
    scan (.word loc first latest) l (cs ++ rest) =
      (scan .gap (l.afterAll cs) rest).cons ⟨first, latest.reverse ++ cs, loc⟩ := by
  induction cs generalizing l latest with
  | nil =>
      rw [List.append_nil, List.nil_append, Location.afterAll_nil]
      -- The scanner looks again at the character that ends the word.
      cases rest with
      | nil => rfl
      | cons d ds =>
          rcases isBlank_or_eq_hash (hend d rfl) with hd | rfl
          · rw [scan_gap_blank hd]
            simp only [scan, hd, if_true]
          · rw [scan_gap_hash]
            simp only [scan, show isBlank '#' = false from by decide, Bool.false_eq_true, if_false,
              if_true]
  | cons c cs ih =>
      have hc := hcs c List.mem_cons_self
      have hrest : ∀ d ∈ cs, isLetter d = true := fun d hd => hcs d (List.mem_cons_of_mem c hd)
      rw [List.cons_append, scan, if_neg (by simp [not_isBlank_of_isLetter hc]),
        if_neg (ne_hash_of_isLetter hc), ih (c :: latest) hrest, List.reverse_cons,
        List.append_assoc, List.singleton_append, Location.afterAll_cons]

/-- The scanner finds the words of a layout. -/
theorem scan_of_laid (h : Laid l cs text) : scan .gap l cs = text := by
  induction h with
  | last hg => exact scan_lastGap hg
  | @word l g cs rest c text hg hc hcs hend _ ih =>
      rw [Location.afterAll_append, Location.afterAll_cons] at ih
      rw [scan_gap hg, scan_gap_letter hc, scan_word [] hcs hend, ih, List.reverse_nil,
        List.nil_append]

end Scan

/-- A word in front of a text takes all the letters there are. -/
theorem Laid.takeWhile {l : Location} {c : Char} {cs : List Char} {text : ScannedText}
    (hc : isLetter c = true)
    (h : Laid (l.afterAll (c :: cs.takeWhile isLetter)) (cs.dropWhile isLetter) text) :
    Laid l (c :: cs) (text.cons ⟨c, cs.takeWhile isLetter, l⟩) := by
  have hend : ∀ d ∈ (cs.dropWhile isLetter).head?, isLetter d = false := by
    intro d hd
    have hnot := List.head?_dropWhile_not isLetter cs
    rw [Option.mem_def.1 hd] at hnot
    simpa using hnot
  have hlaid := Laid.word .nil hc (List.all_eq_true.1 List.all_takeWhile) hend h
  rw [List.takeWhile_append_dropWhile] at hlaid
  exact hlaid

/-- Every text has a layout. -/
theorem exists_laid (l : Location) (cs : List Char) : ∃ text, Laid l cs text := by
  -- What follows a blank character, a comment or a word is shorter.
  induction hn : cs.length using Nat.strongRecOn generalizing l cs with
  | ind n ih =>
    subst hn
    cases cs with
    | nil => exact ⟨_, .last (.closed .nil)⟩
    | cons c cs =>
        cases hc : isLetter c with
        | true =>
            have hshort : (cs.dropWhile isLetter).length < (c :: cs).length :=
              Nat.lt_succ_of_le (List.dropWhile_sublist _).length_le
            rcases ih _ hshort _ _ rfl with ⟨text, htext⟩
            exact ⟨_, .takeWhile hc htext⟩
        | false =>
            rcases isBlank_or_eq_hash hc with hblank | rfl
            · rcases ih cs.length (Nat.lt_succ_self _) (l.after c) cs rfl with ⟨text, htext⟩
              exact ⟨text, htext.prepend (l := l) (.blank hblank .nil)⟩
            · -- A comment ends with its line, or with the text.
              by_cases hline : '\n' ∈ cs
              · rcases List.eq_append_cons_of_mem hline with ⟨body, rest, rfl, hbody⟩
                have hshort : rest.length < ('#' :: (body ++ '\n' :: rest)).length := by
                  simp only [List.length_cons, List.length_append]
                  omega
                rcases ih _ hshort _ _ rfl with ⟨text, htext⟩
                have hlaid := Laid.prepend (l := l) (.comment hbody .nil) htext
                rw [List.cons_append, List.append_assoc] at hlaid
                exact ⟨text, hlaid⟩
              · exact ⟨_, .last (.comment .nil hline)⟩

/-- A text is laid out in one way, which is what the scanner finds. -/
theorem laid_iff {l : Location} {cs : List Char} {text : ScannedText} :
    Laid l cs text ↔ scan .gap l cs = text := by
  constructor
  · exact scan_of_laid
  · rintro rfl
    rcases exists_laid l cs with ⟨text, htext⟩
    rw [scan_of_laid htext]
    exact htext

end StackLang
