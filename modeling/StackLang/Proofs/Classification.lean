import Mathlib.Data.Nat.Digits.Defs
import StackLang.Proofs.ReadBack

/-!
# What a word is

The tokens of words and the errors of words, said by what the characters are.

A word has a shape if it is a fixed spelling, a numeral or an identifier, in this order. The
fixed spellings are written out in `fixedSpellings`, and what is looked up is this list. A
numeral is made of decimal digits with an optional minus sign, and stands for the number that
these are the digits of; there may be leading zeros, and a zero may have a sign. The token of a
word is told by its shape, as long as a number fits into an integer: `Classified`. All other
words are in error, either because of their number or because they have no shape. In the latter
case the longest proper initial part that has a shape is good, and the character after it is to
blame: `Misread`.

Both relations are decided by `Token.ofWord`, each word being on one side only.

## Main definitions

* `Numeral`: A word that stands for a number.
* `Identifier`: A word that can be a name.
* `fixedSpellings`: The words whose kind is fixed by the language.
* `HasShape`: What a word is by its characters.
* `Legible`: The words that are tokens.
* `Classified`: The kind of a word.
* `Longest`: How much of a word has a shape.
* `Misread`: The error of a word.

## Theorems

* `spellings_eq`: The spellings that are looked up are those of the language.
* `shape?_eq_some_iff`: The shape of a word is the one that is computed.
* `exists_toInt_iff`: The numbers that fit into an integer.
* `legible_iff_exists_classified`: A word is a token if it has a kind.
* `longest_recognized`: How much of a word is recognized.
* `Token.ofWord_eq_ok_iff`, `Token.ofWord_eq_error_iff`: What becomes of a word.
-/

namespace StackLang

/-- Decimal digits, at least one of them. -/
def Digits (ds : List Char) : Prop := ds ≠ [] ∧ ∀ d ∈ ds, '0' ≤ d ∧ d ≤ '9'

/-- The number with the given decimal digits, the first of which counts most. -/
def decimal (ds : List Char) : Nat :=
  Nat.ofDigits 10 (ds.reverse.map fun d => d.toNat - '0'.toNat)

/-- Digits with an optional minus sign before them, and the number they stand for. -/
inductive Numeral : List Char → Int → Prop
  | positive {ds : List Char} (h : Digits ds) : Numeral ds (decimal ds)
  | negative {ds : List Char} (h : Digits ds) : Numeral ('-' :: ds) (-(decimal ds : Int))

/-- Whether a name can start with a character. -/
def Initial (c : Char) : Prop := ('a' ≤ c ∧ c ≤ 'z') ∨ ('A' ≤ c ∧ c ≤ 'Z') ∨ c = '_'

/-- A letter or an underscore, and then letters, digits and underscores. -/
def Identifier (w : List Char) : Prop :=
  ∃ c cs, w = c :: cs ∧ Initial c ∧ ∀ d ∈ cs, Initial d ∨ ('0' ≤ d ∧ d ≤ '9')

/-- The words whose kind is fixed by the language, row by row: keywords, truth values,
    delimiters, operators and the print statement. -/
def fixedSpellings : List (String × TokenKind) :=
  [("VARIABLE", .keyword .VARIABLE), ("ASSIGN", .keyword .ASSIGN), ("IF", .keyword .IF),
   ("ELSE", .keyword .ELSE), ("THEN", .keyword .THEN), ("BEGIN", .keyword .BEGIN),
   ("WHILE", .keyword .WHILE), ("REPEAT", .keyword .REPEAT), ("VALUE", .keyword .VALUE),
   ("RETURN", .keyword .RETURN),
   ("True", .boolean true), ("False", .boolean false),
   ("|", .bar), ("(", .openParen), (")", .closeParen),
   ("+", .operator .add), ("-", .operator .sub), ("*", .operator .mul), ("/", .operator .div),
   ("==", .operator .eq), (">", .operator .gt), ("<", .operator .lt), (">=", .operator .ge),
   ("<=", .operator .le),
   ("__PRINT__", .print)]

/-- What a word is by its characters. A fixed spelling goes before a numeral, and that before an
    identifier. -/
inductive HasShape (w : List Char) : Shape → Prop
  | fixed {kind : TokenKind} (h : (String.ofList w, kind) ∈ fixedSpellings) :
      HasShape w (.fixed kind)
  | integer {n : Int} (hfixed : ∀ kind, (String.ofList w, kind) ∉ fixedSpellings)
      (h : Numeral w n) : HasShape w (.integer n)
  | identifier (hfixed : ∀ kind, (String.ofList w, kind) ∉ fixedSpellings)
      (hnumeral : ∀ n, ¬ Numeral w n) (h : Identifier w) : HasShape w .identifier

/-- The words that are tokens: fixed spellings, numerals whose number fits into 64 bits, and
    identifiers. -/
def Legible (w : List Char) : Prop :=
  (∃ kind, (String.ofList w, kind) ∈ fixedSpellings) ∨
    (∃ n, Numeral w n ∧ -2 ^ 63 ≤ n ∧ n < 2 ^ 63) ∨ Identifier w

/-- The kind of a word. -/
inductive Classified (w : List Char) : TokenKind → Prop
  | fixed {kind : TokenKind} (h : HasShape w (.fixed kind)) : Classified w kind
  | integer {i : Integer} (h : HasShape w (.integer i.toInt)) : Classified w (.integer i)
  | identifier (h : HasShape w .identifier) : Classified w .identifier

/-- The first `m` characters are the longest proper initial part of a word that has a shape, or
    there is none and `m` is zero. -/
structure Longest (w : List Char) (m : Nat) : Prop where
  lt : m < w.length
  shaped : m = 0 ∨ ∃ s, HasShape (w.take m) s
  longest : ∀ k, m < k → k < w.length → ∀ s, ¬ HasShape (w.take k) s

/-- The error of a word that stands at `l`. -/
inductive Misread (w : List Char) (l : Location) : LexError → Prop
  /-- The number of a numeral does not fit. -/
  | outOfRange {n : Int} (h : HasShape w (.integer n)) (hn : n < -2 ^ 63 ∨ 2 ^ 63 ≤ n) :
      Misread w l ⟨.integerOutOfRange (String.ofList w), l⟩
  /-- The character after the longest part with a shape is to blame. -/
  | invalid {m : Nat} {c : Char} (h : ∀ s, ¬ HasShape w s) (hm : Longest w m)
      (hc : w[m]? = some c) : Misread w l ⟨.invalidCharacter c, l.right m⟩

section Shapes

variable {w ds : List Char} {c : Char}

theorem isDigit_iff : c.isDigit = true ↔ '0' ≤ c ∧ c ≤ '9' := by
  simp only [Char.isDigit, Bool.and_eq_true, decide_eq_true_eq, ge_iff_le, Char.le_def]

theorem isDigits_iff : isDigits ds = true ↔ Digits ds := by
  simp only [isDigits, Digits, Bool.and_eq_true, Bool.not_eq_true', List.isEmpty_eq_false_iff,
    List.all_eq_true, isDigit_iff]

theorem ofDigitChars_eq_decimal (ds : List Char) : Nat.ofDigitChars 10 ds 0 = decimal ds := by
  rw [decimal, Nat.ofDigits_eq_foldr, List.foldr_map, List.foldr_reverse, Nat.ofDigitChars]
  simp only [Nat.cast_id, Nat.add_comm]

/-- The numerals are the words with the value of an integer. -/
theorem integerValue?_eq_some_iff {n : Int} : integerValue? w = some n ↔ Numeral w n := by
  constructor
  · intro h
    unfold integerValue? at h
    split at h
    next ds =>
        by_cases hds : isDigits ds
        · rw [if_pos hds] at h
          cases h
          rw [Integer.value, if_pos rfl, ofDigitChars_eq_decimal]
          exact .negative (isDigits_iff.1 hds)
        · rw [if_neg hds] at h
          cases h
    next =>
        by_cases hds : isDigits w
        · rw [if_pos hds] at h
          cases h
          rw [Integer.value, if_neg (by decide), ofDigitChars_eq_decimal]
          exact .positive (isDigits_iff.1 hds)
        · rw [if_neg hds] at h
          cases h
  · rintro (hds | hds)
    · rw [integerValue?_of_isDigits (isDigits_iff.2 hds), Integer.value, if_neg (by decide),
        ofDigitChars_eq_decimal]
    · rw [integerValue?, if_pos (isDigits_iff.2 hds), Integer.value, if_pos rfl,
        ofDigitChars_eq_decimal]

theorem initial_iff : (c.isAlpha || c == '_') = true ↔ Initial c := by
  have hupper : c.isUpper = true ↔ 'A' ≤ c ∧ c ≤ 'Z' := decide_eq_true_iff
  have hlower : c.isLower = true ↔ 'a' ≤ c ∧ c ≤ 'z' :=
    (Bool.and_eq_true_iff).trans (and_congr decide_eq_true_iff decide_eq_true_iff)
  have halpha : c.isAlpha = (c.isUpper || c.isLower) := rfl
  rw [halpha, Bool.or_eq_true, Bool.or_eq_true, beq_iff_eq, hupper, hlower, Initial]
  exact or_assoc.trans or_left_comm

theorem isIdentifier_iff : isIdentifier w = true ↔ Identifier w := by
  have hrest : ∀ d : Char, (d.isAlphanum || d == '_') = true ↔
      Initial d ∨ ('0' ≤ d ∧ d ≤ '9') := by
    intro d
    rw [← initial_iff, ← isDigit_iff, Char.isAlphanum]
    simp only [Bool.or_eq_true]
    exact or_right_comm
  cases w with
  | nil => simp [isIdentifier, Identifier]
  | cons c cs =>
      simp only [isIdentifier, Identifier, Bool.and_eq_true, initial_iff, List.all_eq_true, hrest]
      constructor
      · rintro ⟨hc, hcs⟩
        exact ⟨c, cs, rfl, hc, hcs⟩
      · rintro ⟨_, _, heq, hc, hcs⟩
        cases heq
        exact ⟨hc, hcs⟩

/-- The spellings that are looked up are those of the language. -/
theorem spellings_eq : spellings = fixedSpellings := rfl

/-- The spellings are different, so looking one up finds what belongs to it. -/
theorem fixedKind?_eq_some_iff {kind : TokenKind} :
    fixedKind? w = some kind ↔ (String.ofList w, kind) ∈ fixedSpellings := by
  have hall : ∀ e ∈ fixedSpellings, fixedSpellings.lookup e.1 = some e.2 := by decide +kernel
  rw [fixedKind?, spellings_eq]
  constructor
  · intro h
    rcases List.lookup_eq_some_iff.1 h with ⟨before, after, hsplit, _⟩
    rw [hsplit]
    exact List.mem_append_right before List.mem_cons_self
  · exact hall _

/-- The shape of a word is the one that is computed. -/
theorem shape?_eq_some_iff {s : Shape} : shape? w = some s ↔ HasShape w s := by
  have hfixed : fixedKind? w = none ↔ ∀ kind, (String.ofList w, kind) ∉ fixedSpellings := by
    simp only [Option.eq_none_iff_forall_ne_some, ne_eq, fixedKind?_eq_some_iff]
  have hnumeral : integerValue? w = none ↔ ∀ n, ¬ Numeral w n := by
    simp only [Option.eq_none_iff_forall_ne_some, ne_eq, integerValue?_eq_some_iff]
  constructor
  · intro h
    unfold shape? at h
    split at h
    next kind hkind =>
        cases h
        exact .fixed (fixedKind?_eq_some_iff.1 hkind)
    next hkind =>
        split at h
        next n hn =>
            cases h
            exact .integer (hfixed.1 hkind) (integerValue?_eq_some_iff.1 hn)
        next hn =>
            by_cases hid : isIdentifier w
            · rw [if_pos hid] at h
              cases h
              exact .identifier (hfixed.1 hkind) (hnumeral.1 hn) (isIdentifier_iff.1 hid)
            · rw [if_neg hid] at h
              cases h
  · rintro (h | ⟨hkind, h⟩ | ⟨hkind, hn, h⟩)
    · simp only [shape?, fixedKind?_eq_some_iff.2 h]
    · simp only [shape?, hfixed.2 hkind, integerValue?_eq_some_iff.2 h]
    · simp only [shape?, hfixed.2 hkind, hnumeral.2 hn, isIdentifier_iff.2 h, if_true]

theorem HasShape.unique {s s' : Shape} (h : HasShape w s) (h' : HasShape w s') : s = s' :=
  Option.some.inj ((shape?_eq_some_iff.2 h).symm.trans (shape?_eq_some_iff.2 h'))

theorem shape?_eq_none_iff : shape? w = none ↔ ∀ s, ¬ HasShape w s := by
  simp only [Option.eq_none_iff_forall_ne_some, ne_eq, shape?_eq_some_iff]

end Shapes

section Ranges

variable {n : Int}

/-- The numbers that fit into an integer. -/
theorem exists_toInt_iff : (∃ i : Integer, i.toInt = n) ↔ -2 ^ 63 ≤ n ∧ n < 2 ^ 63 := by
  constructor
  · rintro ⟨i, rfl⟩
    exact ⟨i.le_toInt, i.toInt_lt⟩
  · rintro ⟨hmin, hmax⟩
    exact ⟨.ofInt n, Int64.toInt_ofInt_of_le hmin hmax⟩

theorem ofInt?_eq_none_iff : Integer.ofInt? n = none ↔ n < -2 ^ 63 ∨ 2 ^ 63 ≤ n := by
  rw [Option.eq_none_iff_forall_ne_some]
  simp only [ne_eq, Integer.ofInt?_eq_some_iff]
  rw [← not_exists, exists_toInt_iff]
  omega

end Ranges

section Words

variable {w : List Char}

/-- No identifier is a numeral: the first characters differ. -/
theorem not_numeral_of_identifier (h : Identifier w) (n : Int) : ¬ Numeral w n := by
  rcases h with ⟨c, cs, rfl, hc, _⟩
  intro hnumeral
  cases hnumeral with
  | positive hds =>
      have hdigit := hds.2 c List.mem_cons_self
      rcases hc with hc | hc | rfl
      · exact absurd (Char.le_trans hc.1 hdigit.2) (by decide)
      · exact absurd (Char.le_trans hc.1 hdigit.2) (by decide)
      · exact absurd hdigit.2 (by decide)
  | negative => exact absurd hc (by unfold Initial; decide)

/-- A word is a token if it has a kind. -/
theorem legible_iff_exists_classified : Legible w ↔ ∃ kind, Classified w kind := by
  by_cases hfixed : ∃ kind, (String.ofList w, kind) ∈ fixedSpellings
  · rcases hfixed with ⟨kind, hkind⟩
    exact ⟨fun _ => ⟨kind, .fixed (.fixed hkind)⟩, fun _ => .inl ⟨kind, hkind⟩⟩
  · have hno := not_exists.1 hfixed
    constructor
    · rintro (h | ⟨n, hn, hrange⟩ | h)
      · exact absurd h hfixed
      · rcases exists_toInt_iff.2 hrange with ⟨i, rfl⟩
        exact ⟨_, .integer (.integer hno hn)⟩
      · exact ⟨_, .identifier (.identifier hno (not_numeral_of_identifier h) h)⟩
    · rintro ⟨kind, h⟩
      cases h with
      | fixed h =>
          cases h with
          | fixed h => exact absurd h (hno _)
      | integer h =>
          cases h with
          | integer _ h => exact .inr (.inl ⟨_, h, exists_toInt_iff.1 ⟨_, rfl⟩⟩)
      | identifier h =>
          cases h with
          | identifier _ _ h => exact .inr (.inr h)

/-- A word with an error is no token. -/
theorem Misread.not_legible {l : Location} {e : LexError} (h : Misread w l e) : ¬ Legible w := by
  rw [legible_iff_exists_classified]
  rintro ⟨kind, hkind⟩
  cases h with
  | outOfRange h hn =>
      cases hkind with
      | fixed h' => cases h.unique h'
      | @integer i h' =>
          cases h.unique h'
          have hrange := exists_toInt_iff.1 ⟨i, rfl⟩
          omega
      | identifier h' => cases h.unique h'
  | invalid h _ _ => cases hkind <;> exact h _ ‹_›

theorem Longest.unique {m m' : Nat} (h : Longest w m) (h' : Longest w m') : m = m' := by
  -- The longer of two would be a longer part than the shorter one allows.
  have hle : ∀ {m m'}, Longest w m → Longest w m' → ¬ m < m' := by
    intro m m' h h' hlt
    rcases h'.shaped with rfl | ⟨s, hs⟩
    · exact absurd hlt (Nat.not_lt_zero m)
    · exact h.longest m' hlt h'.lt s hs
  exact Nat.le_antisymm (Nat.not_lt.1 (hle h' h)) (Nat.not_lt.1 (hle h h'))

/-- The search for the largest number below a bound with a property. -/
theorem find?_reverse_range (p : Nat → Bool) (n : Nat) :
    ((List.range n).reverse.find? p = none ∧ ∀ k < n, p k = false) ∨
      ∃ m < n, (List.range n).reverse.find? p = some m ∧ p m = true ∧
        ∀ k, m < k → k < n → p k = false := by
  induction n with
  | zero => exact .inl ⟨rfl, fun k hk => absurd hk (Nat.not_lt_zero k)⟩
  | succ n ih =>
      rw [List.range_succ, List.reverse_append, List.reverse_singleton, List.singleton_append]
      by_cases hn : p n = true
      · refine .inr ⟨n, Nat.lt_succ_self n, List.find?_cons_of_pos hn, hn, ?_⟩
        intro k hk hk'
        omega
      · rw [List.find?_cons_of_neg hn]
        -- The bound itself does not have the property, so nothing changes.
        have hstep : ∀ k, k < n + 1 → k < n ∨ k = n := fun k hk => by omega
        rcases ih with ⟨hnone, hall⟩ | ⟨m, hm, hsome, hp, hall⟩
        · refine .inl ⟨hnone, fun k hk => ?_⟩
          rcases hstep k hk with hk | rfl
          · exact hall k hk
          · exact Bool.eq_false_iff.2 hn
        · refine .inr ⟨m, Nat.lt_succ_of_lt hm, hsome, hp, fun k hk hk' => ?_⟩
          rcases hstep k hk' with hk' | rfl
          · exact hall k hk hk'
          · exact Bool.eq_false_iff.2 hn

theorem longest_recognized (h : w ≠ []) : Longest w (recognized w) := by
  have hno : ∀ k, (shape? (w.take k)).isSome = false → ∀ s, ¬ HasShape (w.take k) s := by
    intro k hk
    exact shape?_eq_none_iff.1 (Option.not_isSome_iff_eq_none.1 (by simp [hk]))
  rcases find?_reverse_range (fun m => (shape? (w.take m)).isSome) w.length with
    ⟨hnone, hall⟩ | ⟨m, hm, hsome, hshape, hall⟩
  · have hzero : recognized w = 0 := by rw [recognized, hnone, Option.getD_none]
    rw [hzero]
    exact ⟨List.length_pos_iff.2 h, .inl rfl, fun k _ hk => hno k (hall k hk)⟩
  · have heq : recognized w = m := by rw [recognized, hsome, Option.getD_some]
    rw [heq]
    rcases Option.isSome_iff_exists.1 hshape with ⟨s, hs⟩
    exact ⟨hm, .inr ⟨s, shape?_eq_some_iff.1 hs⟩, fun k hk hk' => hno k (hall k hk hk')⟩

end Words

namespace Token

variable {w : Word}

/-- A word is a token if it has a kind, and the token has this kind. -/
theorem ofWord_eq_ok_iff {t : Token} :
    Token.ofWord w = .ok t ↔ Classified w.letters t.kind ∧ t.text = w.text ∧ t.loc = w.loc := by
  constructor
  · intro h
    unfold Token.ofWord at h
    split at h
    next kind hshape =>
        cases h
        exact ⟨.fixed (shape?_eq_some_iff.1 hshape), rfl, rfl⟩
    next n hshape =>
        split at h
        next i hi =>
            cases h
            rw [← Integer.ofInt?_eq_some_iff.1 hi] at hshape
            exact ⟨.integer (shape?_eq_some_iff.1 hshape), rfl, rfl⟩
        next => cases h
    next hshape =>
        cases h
        exact ⟨.identifier (shape?_eq_some_iff.1 hshape), rfl, rfl⟩
    next => cases h
  · rcases t with ⟨kind, text, loc⟩
    rintro ⟨hkind, rfl, rfl⟩
    cases hkind with
    | fixed h => simp only [Token.ofWord, shape?_eq_some_iff.2 h]
    | integer h => simp only [Token.ofWord, shape?_eq_some_iff.2 h, Integer.ofInt?_toInt]
    | identifier h => simp only [Token.ofWord, shape?_eq_some_iff.2 h]

/-- A word that is no token has its error. -/
theorem ofWord_eq_error_iff {e : LexError} :
    Token.ofWord w = .error e ↔ Misread w.letters w.loc e := by
  have hlongest : Longest w.letters (recognized w.letters) :=
    longest_recognized (List.cons_ne_nil _ _)
  have hchar : w.letters[recognized w.letters]? =
      some (w.letters.getD (recognized w.letters) w.first) := by
    rw [List.getD_eq_getElem?_getD, List.getElem?_eq_getElem hlongest.lt, Option.getD_some]
  constructor
  · intro h
    unfold Token.ofWord at h
    split at h
    next => cases h
    next n hshape =>
        split at h
        next => cases h
        next hi =>
            cases h
            exact .outOfRange (shape?_eq_some_iff.1 hshape) (ofInt?_eq_none_iff.1 hi)
    next => cases h
    next hshape =>
        cases h
        exact .invalid (shape?_eq_none_iff.1 hshape) hlongest hchar
  · rintro (⟨h, hn⟩ | ⟨h, hm, hc⟩)
    · simp only [Token.ofWord, shape?_eq_some_iff.2 h, ofInt?_eq_none_iff.2 hn, Word.text]
    · cases hm.unique hlongest
      cases hchar.symm.trans hc
      simp only [Token.ofWord, shape?_eq_none_iff.2 h, Word.invalid]

end Token

end StackLang
