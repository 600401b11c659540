import Mathlib.Data.List.DropRight
import StackLang.Proofs.Lexing

/-!
# Reading on after a bad word

A reader that has met a bad word goes on right after it.

The state of a reader can be said without running it: it stands between the characters that it
has read and those that it has not, `TokenReader.between`. A request is one of two things. If
all words that are left are legible it reads them and the end, and stands at the end. Otherwise
it gives the error of the first word that is not, and stands right after that word:
`TokenReader.read_of_not_legible`. In both cases the places of later words are counted from the
start of the text, because a word's place is determined by all that stands before it.

So the requests to a reader go through the bad words one by one, then through the tokens after
the last of them, and then there is only the end: `resumes_ofSource`.

## Main definitions

* `illegible`: The words of a text that are no tokens.
* `TokenReader.between`: The reader between two parts of a text.
* `TokenReader.after`: The reader after so many requests.
* `TokenReader.Resumes`: What the requests to a reader give.

## Theorems

* `legible_iff`: Whether a word is legible can be computed.
* `Decomposes.exists_split`: A text is cut before and after each of its words.
* `TokenReader.read_of_legible`, `TokenReader.read_of_not_legible`: One request.
* `resumes_between`, `resumes_ofSource`: Any number of requests.
-/

namespace StackLang

/-- Whether a word of this shape is a token. -/
def Shape.fits : Shape → Bool
  | .fixed _ => true
  | .integer n => (Integer.ofInt? n).isSome
  | .identifier => true

/-- A word is legible if it has a shape and its number, if it is one, fits. -/
theorem legible_iff {w : List Char} : Legible w ↔ (shape? w).any Shape.fits = true := by
  rw [legible_iff_exists_classified, Option.any_eq_true]
  constructor
  · rintro ⟨kind, h | h | h⟩
    · exact ⟨_, shape?_eq_some_iff.2 h, rfl⟩
    · refine ⟨_, shape?_eq_some_iff.2 h, ?_⟩
      rw [Shape.fits, Integer.ofInt?_toInt]
      rfl
    · exact ⟨_, shape?_eq_some_iff.2 h, rfl⟩
  · rintro ⟨s, hs, hfits⟩
    have hshape := shape?_eq_some_iff.1 hs
    cases s with
    | fixed kind => exact ⟨kind, .fixed hshape⟩
    | identifier => exact ⟨_, .identifier hshape⟩
    | integer n =>
        rcases Option.isSome_iff_exists.1 hfits with ⟨i, hi⟩
        rw [← Integer.ofInt?_eq_some_iff.1 hi] at hshape
        exact ⟨_, .integer hshape⟩

instance : DecidablePred Legible := fun _ => decidable_of_iff _ legible_iff.symm

/-- Those of the given words that are no tokens. -/
def illegible (ms : List (List Char × Location)) : List (List Char × Location) :=
  ms.filter fun m => ¬ Legible m.1

namespace TokenReader

/-- The reader that has read `before`, and has `rest` still to read. -/
def between (before rest : List Char) : TokenReader := ⟨scan .gap (placeAfter before) rest⟩

/-- The reader after so many requests, whatever they have given. -/
def after (r : TokenReader) : Nat → TokenReader
  | 0 => r
  | n + 1 => (r.after n).read.2

theorem after_succ (r : TokenReader) (n : Nat) : r.after (n + 1) = r.read.2.after n := by
  induction n with
  | zero => rfl
  | succ n ih => rw [after, ih, after]

end TokenReader

section Words

variable {ms ns : List (List Char × Location)} {m : List Char × Location}

theorem illegible_of_legible (h : ∀ v ∈ ms, Legible v.1) : illegible ms = [] := by
  refine List.filter_eq_nil_iff.2 fun v hv => ?_
  simpa using h v hv

/-- The first bad word comes first, and the others are in what follows it. -/
theorem illegible_append (h : ∀ v ∈ ms, Legible v.1) (hm : ¬ Legible m.1)
    (ns : List (List Char × Location)) :
    illegible (ms ++ m :: ns) = m :: illegible ns := by
  rw [illegible, List.filter_append, List.filter_cons_of_pos (by simpa using hm), ← illegible,
    illegible_of_legible h, List.nil_append, ← illegible]

/-- The legible words at the end are in what follows a bad word. -/
theorem rtakeWhile_append (hm : ¬ Legible m.1) :
    (ms ++ m :: ns).rtakeWhile (fun v => Legible v.1) = ns.rtakeWhile fun v => Legible v.1 := by
  have hcut : ∀ vs us : List (List Char × Location),
      (vs ++ m :: us).takeWhile (fun v => Legible v.1) = vs.takeWhile fun v => Legible v.1 := by
    intro vs us
    induction vs with
    | nil => exact List.takeWhile_cons_of_neg (by simpa using hm)
    | cons v vs ih => rw [List.cons_append, List.takeWhile_cons, List.takeWhile_cons, ih]
  rw [List.rtakeWhile, List.rtakeWhile, List.reverse_append, List.reverse_cons, List.append_assoc,
    List.singleton_append, hcut]

theorem rtakeWhile_of_legible (h : ∀ v ∈ ms, Legible v.1) :
    ms.rtakeWhile (fun v => Legible v.1) = ms :=
  List.rtakeWhile_eq_self_iff.2 fun v hv => decide_eq_true (h v hv)

/-- A word is its characters and its place. -/
theorem Word.injective_letters_loc : Function.Injective fun w : Word => (w.letters, w.loc) := by
  rintro ⟨first, rest, loc⟩ ⟨first', rest', loc'⟩ h
  cases h
  rfl

end Words

section Requests

variable {before cs g w g' : List Char} {parts ps qs : List (List Char × List Char)}

/-- A text is cut before and after each of its words: what stands before gives the word its
    place, and what stands after is cut as the whole is. -/
theorem Decomposes.exists_split (h : Decomposes cs g (ps ++ (w, g') :: qs)) (before : List Char) :
    ∃ front rest, cs = front ++ (w ++ rest) ∧ Decomposes rest g' qs ∧
      placed (before ++ g) (ps ++ (w, g') :: qs) =
        placed (before ++ g) ps ++
          (w, placeAfter (before ++ front)) :: placed (before ++ (front ++ w) ++ g') qs := by
  induction ps generalizing cs g before with
  | nil =>
      cases h with
      | word hg hw hletters hrest hsep =>
          refine ⟨g, _, rfl, hrest, ?_⟩
          simp only [List.nil_append, placed, List.append_assoc]
  | cons part ps ih =>
      cases h with
      | @word _ v rest' gv _ hg hw hletters hrest hsep =>
          rcases ih hrest (before ++ (g ++ v)) with ⟨front, rest, rfl, hqs, hplaced⟩
          refine ⟨g ++ (v ++ front), rest, by simp only [List.append_assoc], hqs, ?_⟩
          simp only [List.append_assoc] at hplaced
          simp only [List.cons_append, placed, List.append_assoc, hplaced]

/-- The words that a reader has before it. -/
theorem exists_between_eq (h : Decomposes cs g parts) (before : List Char) :
    ∃ ws, TokenReader.between before cs = ⟨⟨ws, placeAfter (before ++ cs)⟩⟩ ∧
      ws.map (fun w => (w.letters, w.loc)) = placed (before ++ g) parts := by
  rcases h.laid before with ⟨⟨ws, finish⟩, hlaid, hfinish, hwords⟩
  refine ⟨ws, ?_, hwords⟩
  rw [TokenReader.between, scan_of_laid hlaid]
  exact congrArg (fun finish => TokenReader.mk ⟨ws, finish⟩) hfinish

theorem forall_placed_legible (h : ∀ part ∈ parts, Legible part.1) (before : List Char) :
    ∀ m ∈ placed before parts, Legible m.1 := by
  rw [← List.forall_mem_map (f := Prod.fst) (P := Legible), map_fst_placed, List.forall_mem_map]
  exact h

namespace TokenReader

/-- A request where all words are legible reads them and the end. -/
theorem read_of_legible (h : Decomposes cs g parts) (hall : ∀ part ∈ parts, Legible part.1)
    (before : List Char) :
    ∃ us, (between before cs).read =
        (.ok (us ++ [.endAt (placeAfter (before ++ cs))]), between (before ++ cs) []) ∧
      List.Forall₂ ReadAs (placed (before ++ g) parts) us := by
  rcases exists_between_eq h before with ⟨ws, hbetween, hwords⟩
  have hplaced := forall_placed_legible hall (before ++ g)
  rw [hbetween, read]
  rcases hread : readWords (placeAfter (before ++ cs)) ws with ⟨result, rest⟩
  cases result with
  | ok ts =>
      rcases readWords_eq_ok_iff.1 hread with ⟨rfl, us, rfl, hus⟩
      refine ⟨us, rfl, ?_⟩
      rw [← hwords, List.forall₂_map_left_iff]
      exact hus.imp fun w t => readAs_iff.1
  | error e =>
      -- The word with this error would not be legible.
      rcases readWords_eq_error_iff.1 hread with ⟨front, w, rfl, _, hw⟩
      have hmem : (w.letters, w.loc) ∈ placed (before ++ g) parts := by
        rw [← hwords]
        exact List.mem_map_of_mem (List.mem_append_right front List.mem_cons_self)
      exact absurd (hplaced _ hmem) (Token.ofWord_eq_error_iff.1 hw).not_legible

/-- A request where a word is not legible gives the error of the first such word, and leaves the
    reader right after it. -/
theorem read_of_not_legible (h : Decomposes cs g (ps ++ (w, g') :: qs))
    (hps : ∀ part ∈ ps, Legible part.1) (hw : ¬ Legible w) (before : List Char) :
    ∃ front rest e, cs = front ++ (w ++ rest) ∧ Decomposes rest g' qs ∧
      Misread w (placeAfter (before ++ front)) e ∧
      (between before cs).read = (.error e, between (before ++ (front ++ w)) rest) ∧
      placed (before ++ g) (ps ++ (w, g') :: qs) =
        placed (before ++ g) ps ++
          (w, placeAfter (before ++ front)) :: placed (before ++ (front ++ w) ++ g') qs := by
  rcases h.exists_split before with ⟨front, rest, rfl, hrest, hplaced⟩
  rcases exists_between_eq h before with ⟨ws, hbetween, hwords⟩
  rcases exists_between_eq hrest (before ++ (front ++ w)) with ⟨ws', hbetween', hwords'⟩
  -- The words before the bad one, the bad one, and those that are left.
  rw [hplaced] at hwords
  rcases List.map_eq_append_iff.1 hwords with ⟨us, vs, rfl, hus, hvs⟩
  rcases List.map_eq_cons_iff.1 hvs with ⟨v, vs, rfl, hv, hvs⟩
  rw [← hwords'] at hvs
  have hleft : vs = ws' := List.map_injective_iff.2 Word.injective_letters_loc hvs
  have hlegible : ∀ u ∈ us, ∃ t, Token.ofWord u = .ok t := by
    intro u hu
    refine exists_ofWord_iff.2 (forall_placed_legible hps (before ++ g) (u.letters, u.loc) ?_)
    rw [← hus]
    exact List.mem_map_of_mem hu
  rcases Prod.mk.inj hv with ⟨hletters, hloc⟩
  cases he : Token.ofWord v with
  | ok t => exact absurd (hletters ▸ exists_ofWord_iff.1 ⟨t, he⟩) hw
  | error e =>
      have hread : readWords (placeAfter (before ++ (front ++ (w ++ rest)))) (us ++ v :: vs) =
          (.error e, vs) := readWords_eq_error_iff.2 ⟨us, v, rfl, hlegible, he⟩
      have hmisread := Token.ofWord_eq_error_iff.1 he
      rw [hletters, hloc] at hmisread
      refine ⟨front, rest, e, rfl, hrest, hmisread, ?_, hplaced⟩
      rw [hbetween, read, hread, hbetween', hleft]
      simp only [List.append_assoc]

/-- What the requests to a reader give, when it is at the start of the words `ms`, which are the
    last ones of the given text. -/
structure Resumes (r : TokenReader) (text : List Char) (ms : List (List Char × Location)) :
    Prop where
  /-- Each bad word in turn gives its error, at its place in the whole text, and the reader is
      left right after it. -/
  errors : ∀ (j : Nat) (m : List Char × Location), (illegible ms)[j]? = some m →
    ∃ front rest e, text = front ++ (m.1 ++ rest) ∧ m.2 = placeAfter front ∧ Misread m.1 m.2 e ∧
      (r.after j).read = (.error e, between (front ++ m.1) rest)
  /-- Then the words after the last bad one are read, and the end of the text. -/
  tokens : ∃ us, (r.after (illegible ms).length).read.1 = .ok (us ++ [.endAt (placeAfter text)]) ∧
    List.Forall₂ ReadAs (ms.rtakeWhile fun m => Legible m.1) us
  /-- From then on there is only the end. -/
  ended : ∀ n, (illegible ms).length < n → (r.after n).read.1 = .ok [.endAt (placeAfter text)]

end TokenReader

open TokenReader

/-- At the end of a text every request gives the end. -/
theorem read_after_end (text : List Char) (n : Nat) :
    ((between text []).after n).read = (.ok [.endAt (placeAfter text)], between text []) := by
  induction n with
  | zero => rfl
  | succ n ih =>
      rw [after, ih]
      rfl

/-- Any number of requests to a reader in the middle of a text. -/
theorem resumes_between (h : Decomposes cs g parts) (before : List Char) :
    (between before cs).Resumes (before ++ cs) (placed (before ++ g) parts) := by
  -- What is left after a bad word has fewer words.
  induction hn : parts.length using Nat.strongRecOn generalizing before cs g parts with
  | ind n ih =>
    subst hn
    cases hfind : parts.find? fun part => ¬ Legible part.1 with
    | none =>
        have hall : ∀ part ∈ parts, Legible part.1 := by
          intro part hpart
          simpa using List.find?_eq_none.1 hfind part hpart
        have hplaced := forall_placed_legible hall (before ++ g)
        rcases read_of_legible h hall before with ⟨us, hread, hus⟩
        refine ⟨?_, ?_, ?_⟩
        · intro j m hm
          rw [illegible_of_legible hplaced] at hm
          cases hm
        · rw [illegible_of_legible hplaced, rtakeWhile_of_legible hplaced]
          exact ⟨us, congrArg Prod.fst hread, hus⟩
        · intro n hlt
          obtain ⟨n, rfl⟩ : ∃ k, n = k + 1 := ⟨n - 1, by omega⟩
          rw [after_succ, hread, read_after_end]
    | some part =>
        rcases List.find?_eq_some_iff_append.1 hfind with ⟨hw, ps, qs, rfl, hps⟩
        rcases part with ⟨w, g'⟩
        have hw : ¬ Legible w := by simpa using hw
        have hps : ∀ part ∈ ps, Legible part.1 := by
          intro part hpart
          simpa using hps part hpart
        rcases read_of_not_legible h hps hw before with
          ⟨front, rest, e, rfl, hrest, hmisread, hread, hplaced⟩
        have hshort : qs.length < (ps ++ (w, g') :: qs).length := by
          simp only [List.length_append, List.length_cons]
          omega
        have htext : before ++ (front ++ w) ++ rest = before ++ (front ++ (w ++ rest)) := by
          simp only [List.append_assoc]
        -- The requests after the first one are those to the reader that it leaves.
        have hresumes := ih _ hshort hrest (before ++ (front ++ w)) rfl
        rw [htext] at hresumes
        rcases hresumes with ⟨herrors, ⟨us, htokens, hus⟩, hended⟩
        have hbad := illegible_append (m := (w, placeAfter (before ++ front)))
          (forall_placed_legible hps (before ++ g)) hw (placed (before ++ (front ++ w) ++ g') qs)
        rw [hplaced]
        refine ⟨?_, ?_, ?_⟩
        · intro j m hm
          rw [hbad] at hm
          cases j with
          | zero =>
              cases hm
              refine ⟨before ++ front, rest, e, by simp only [List.append_assoc], rfl, hmisread, ?_⟩
              rw [after, hread, List.append_assoc]
          | succ j =>
              rw [after_succ, hread]
              exact herrors j m hm
        · rw [hbad, List.length_cons, after_succ, hread, rtakeWhile_append hw]
          exact ⟨us, htokens, hus⟩
        · intro n hlt
          rw [hbad, List.length_cons] at hlt
          obtain ⟨n, rfl⟩ : ∃ k, n = k + 1 := ⟨n - 1, by omega⟩
          rw [after_succ, hread]
          exact hended n (by omega)

end Requests

/-- A reader goes on right after a bad word. There is one way to cut a text into gaps and words.
    The requests to a reader of the text give the errors of its bad words one after the other,
    each at the place of its word in the whole text; then the tokens of the words after the last
    of these, at their places in the whole text, and the end; and from then on the end alone. -/
theorem resumes_ofSource (source : String) :
    (∃! d : List Char × List (List Char × List Char), Decomposes source.toList d.1 d.2) ∧
      ∀ lead parts, Decomposes source.toList lead parts →
        (TokenReader.ofSource source).Resumes source.toList (placed lead parts) := by
  refine ⟨existsUnique_decomposes source.toList, ?_⟩
  intro lead parts h
  exact resumes_between h []

-- Two bad words on two lines, the second of which is too large a number.
example : let r := TokenReader.ofSource "1 a$b # c\n x 9223372036854775808 y\n"
    [r.read.1, (r.after 1).read.1, (r.after 2).read.1, (r.after 3).read.1] =
      [.error ⟨.invalidCharacter '$', ⟨1, 4⟩⟩,
        .error ⟨.integerOutOfRange "9223372036854775808", ⟨2, 4⟩⟩,
        .ok [⟨.identifier, "y", ⟨2, 24⟩⟩, .endAt ⟨3, 1⟩], .ok [.endAt ⟨3, 1⟩]] := by
  decide +kernel

end StackLang
