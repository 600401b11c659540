import StackLang.Proofs.Acceptance
import StackLang.Proofs.Layout
import StackLang.Proofs.Output
import StackLang.Proofs.Refinement

/-!
# Printed values read back

What a program has printed is itself a program, which puts the printed values on the stack.

A text has a line for each value. The printed form of a value is made of letters only, and
a line feed ends it, so the words of the text are the printed forms: `exists_laid_lines`.
Such a word is a literal again. For an integer this is so because the value of its digits is
the integer they were made from, whatever its sign and size, and because no fixed spelling
has the shape of an integer, not even the lone minus sign: `Token.ofWord_of_letters`. The
literals are the statements of a program without variables and functions, and to evaluate
them is to put the values on the stack.

## Main definitions

* `Value.kind`: The kind of the literal of a value.
* `literals`: The statements that put values on the stack.

## Theorems

* `integerValue?_digits`: The digits of an integer have its value.
* `fixedKind?_of_integerValue?`: No fixed spelling has the shape of an integer.
* `Token.ofWord_of_letters`: The printed form of a value is its literal.
* `exists_laid_lines`: The words of printed lines.
* `exists_compile_written`: The program of a printed text.
* `evalBlock_literals`: What literals do.
* `runSource_written`: A printed text runs to the printed values.
-/

namespace StackLang

section Digits

theorem isDigits_toDigits (n : Nat) : isDigits (Nat.toDigits 10 n) = true := by
  simp only [isDigits, Bool.and_eq_true, Bool.not_eq_true', List.isEmpty_eq_false_iff,
    List.all_eq_true]
  exact ⟨Nat.toDigits_ne_nil, fun c hc => Nat.isDigit_of_mem_toDigits (by omega) (by omega) hc⟩

theorem integerValue?_of_isDigits {ds : List Char} (h : isDigits ds = true) :
    integerValue? ds = some (Integer.value false ds) := by
  unfold integerValue?
  split
  -- A minus sign is no digit.
  next ds' => exact absurd h (by simp [isDigits, show '-'.isDigit = false from by decide])
  next => rw [if_pos h]

/-- The digits of an integer have its value. -/
theorem integerValue?_digits (n : Int) : integerValue? (Integer.digits n) = some n := by
  have hdigits := isDigits_toDigits n.natAbs
  unfold Integer.digits
  by_cases hn : n < 0
  · rw [if_pos hn, integerValue?, if_pos hdigits, Integer.value, if_pos rfl,
      Nat.ofDigitChars_ten_toDigits]
    exact congrArg some (by omega)
  · rw [if_neg hn, integerValue?_of_isDigits hdigits, Integer.value, if_neg (by decide),
      Nat.ofDigitChars_ten_toDigits]
    exact congrArg some (by omega)

/-- No fixed spelling has the shape of an integer. -/
theorem fixedKind?_of_integerValue? {cs : List Char} {n : Int} (h : integerValue? cs = some n) :
    fixedKind? cs = none := by
  have hspellings : ∀ e ∈ spellings, integerValue? e.1.toList = none := by decide +kernel
  cases hkind : fixedKind? cs with
  | none => rfl
  | some kind =>
      -- The word would be one of the spellings, and those have been looked through.
      rcases List.lookup_eq_some_iff.1 hkind with ⟨before, after, hsplit, _⟩
      have hnone := hspellings (String.ofList cs, kind) (by rw [hsplit]; simp)
      rw [String.toList_ofList, h] at hnone
      cases hnone

end Digits

namespace Value

/-- The kind of the literal of a value. -/
def kind : Value → TokenKind
  | .int n => .integer n
  | .bool b => .boolean b

theorem isLetter_of_isDigit {c : Char} (h : c.isDigit = true) : isLetter c = true := by
  have hrange : 48 ≤ c.toNat ∧ c.toNat ≤ 57 := by
    simp only [Char.isDigit, Bool.and_eq_true, decide_eq_true_eq, ge_iff_le,
      UInt32.le_iff_toNat_le] at h
    exact h
  have hblank : isBlank c = false := by
    simp only [isBlank, blankRanges, List.any_cons, List.any_nil, Bool.or_false,
      Bool.or_eq_false_iff, Bool.and_eq_false_iff, decide_eq_false_iff_not]
    omega
  have hhash : c ≠ '#' := by
    rintro rfl
    exact absurd h (by decide)
  simp only [isLetter, hblank, Bool.not_false, Bool.true_and, bne_iff_ne]
  exact hhash

/-- The printed form of a value is made of letters. -/
theorem isLetter_of_mem_text {v : Value} {c : Char} (h : c ∈ v.text.toList) :
    isLetter c = true := by
  cases v with
  | bool b =>
      have hall : (Value.bool b).text.toList.all isLetter = true := by cases b <;> rfl
      exact List.all_eq_true.1 hall c h
  | int n =>
      simp only [text, Integer.text, String.toList_ofList, Integer.digits] at h
      have hdigit : ∀ d ∈ Nat.toDigits 10 n.toInt.natAbs, isLetter d = true := fun d hd =>
        isLetter_of_isDigit (Nat.isDigit_of_mem_toDigits (by omega) (by omega) hd)
      by_cases hn : n.toInt < 0
      · -- The sign is a letter as well.
        rw [if_pos hn, List.mem_cons] at h
        rcases h with rfl | h
        · decide
        · exact hdigit c h
      · rw [if_neg hn] at h
        exact hdigit c h

theorem toList_text_ne_nil (v : Value) : v.text.toList ≠ [] := by
  cases v with
  | bool b => cases b <;> decide
  | int n =>
      simp only [text, Integer.text, String.toList_ofList, Integer.digits]
      by_cases hn : n.toInt < 0
      · rw [if_pos hn]
        exact List.cons_ne_nil _ _
      · rw [if_neg hn]
        exact Nat.toDigits_ne_nil

end Value

/-- A word that is the printed form of a value is its literal. -/
theorem Token.ofWord_of_letters {w : Word} {v : Value} (h : w.letters = v.text.toList) :
    Token.ofWord w = .ok ⟨v.kind, w.text, w.loc⟩ := by
  cases v with
  | bool b =>
      have hshape : shape? w.letters = some (.fixed (.boolean b)) := by
        rw [h]
        cases b <;> decide +kernel
      simp only [Token.ofWord, hshape, Value.kind]
  | int n =>
      have hvalue : integerValue? w.letters = some n.toInt := by
        rw [h, Value.text, Integer.text, String.toList_ofList, integerValue?_digits]
      have hshape : shape? w.letters = some (.integer n.toInt) := by
        simp only [shape?, fixedKind?_of_integerValue? hvalue, hvalue]
      simp only [Token.ofWord, hshape, Integer.ofInt?_toInt, Value.kind]

/-- The words of printed lines are the printed forms of the values. -/
theorem exists_laid_lines (ps : List Printed) (l : Location) :
    ∃ text, Laid l (ps.flatMap fun p => p.line.toList) text ∧
      text.words.map Word.letters = ps.map fun p => p.value.text.toList := by
  induction ps generalizing l with
  | nil => exact ⟨_, .last (.closed .nil), rfl⟩
  | cons p ps ih =>
      cases hp : p.value.text.toList with
      | nil => exact absurd hp p.value.toList_text_ne_nil
      | cons c cs =>
          have hletters : ∀ d ∈ c :: cs, isLetter d = true := fun d hd =>
            Value.isLetter_of_mem_text (hp ▸ hd)
          rcases ih (l.afterAll (c :: cs ++ ['\n'])) with ⟨text, htext, hwords⟩
          -- The line feed is the gap between this word and what follows.
          rw [Location.afterAll_append] at htext
          have hline := htext.prepend (.blank (by decide) .nil)
          refine ⟨text.cons ⟨c, cs, l⟩, ?_, ?_⟩
          · have hlaid := Laid.word .nil (hletters c List.mem_cons_self)
              (fun d hd => hletters d (List.mem_cons_of_mem c hd)) (by simp; decide) hline
            rw [List.flatMap_cons, Printed.line, String.toList_append, hp, List.append_assoc]
            exact hlaid
          · rw [List.map_cons, hp, ← hwords]
            rfl

/-- The words that are printed forms of values are read as their literals. -/
theorem exists_readWords (finish : Location) {ws : List Word} {vs : List Value}
    (h : ws.map Word.letters = vs.map fun v => v.text.toList) :
    ∃ ts, readWords finish ws = (.ok (ts ++ [.endAt finish]), []) ∧
      ts.map Token.kind = vs.map Value.kind := by
  induction ws generalizing vs with
  | nil =>
      cases vs with
      | nil => exact ⟨[], rfl, rfl⟩
      | cons v vs => cases h
  | cons w ws ih =>
      cases vs with
      | nil => cases h
      | cons v vs =>
          rw [List.map_cons, List.map_cons, List.cons.injEq] at h
          rcases ih h.2 with ⟨ts, hread, hkinds⟩
          refine ⟨⟨v.kind, w.text, w.loc⟩ :: ts, ?_, ?_⟩
          · simp only [readWords, Token.ofWord_of_letters h.1, hread, List.cons_append]
          · rw [List.map_cons, List.map_cons, hkinds]

/-- The statements that put values on the stack. -/
def literals (ps : List Printed) : List Stmt := ps.map fun p => .literal p.value p.loc

theorem exists_reads_literals (n : Names) {ts : List Token} {vs : List Value}
    (h : ts.map Token.kind = vs.map Value.kind) :
    ∃ ps : List Printed, ps.map Printed.value = vs ∧ Reads n ts (literals ps) n [] := by
  induction ts generalizing vs with
  | nil =>
      cases vs with
      | nil => exact ⟨[], rfl, .nil⟩
      | cons v vs => cases h
  | cons t ts ih =>
      cases vs with
      | nil => cases h
      | cons v vs =>
          rw [List.map_cons, List.map_cons, List.cons.injEq] at h
          rcases ih h.2 with ⟨ps, rfl, hreads⟩
          refine ⟨⟨v, t.loc⟩ :: ps, rfl, .simple ?_ hreads⟩
          cases v with
          | int n => exact .integer h.1
          | bool b => exact .boolean h.1

/-- A printed text is the program of the literals of its values. -/
theorem exists_compile_written (ps : List Printed) :
    ∃ qs : List Printed, qs.map Printed.value = ps.map Printed.value ∧
      compile (Sink.feed TextSink.empty ps).written = .ok ⟨literals qs, []⟩ := by
  rcases exists_laid_lines ps .start with ⟨text, htext, hwords⟩
  have hsource : (Sink.feed TextSink.empty ps).written.toList =
      ps.flatMap fun p => p.line.toList := by
    rw [TextSink.feed_eq, TextSink.empty, String.empty_append, String.toList_join,
      List.flatMap_map]
  have hscan : wordsOf (Sink.feed TextSink.empty ps).written = text := by
    rw [wordsOf, hsource]
    exact scan_of_laid htext
  have hforms : text.words.map Word.letters =
      (ps.map Printed.value).map fun v => v.text.toList := by
    rw [hwords, List.map_map]
    rfl
  rcases exists_readWords text.finish hforms with ⟨ts, hread, hkinds⟩
  rcases exists_reads_literals (.ofHeaders (headersOf ts)) hkinds with ⟨qs, hvalues, hreads⟩
  have htokens : tokenize (Sink.feed TextSink.empty ps).written =
      .ok (ts ++ [Token.endAt text.finish]) := by
    rw [tokenize, TokenReader.ofSource, TokenReader.read, hscan, hread]
  exact ⟨qs, hvalues, compile_of_reads htokens hreads⟩

section Run

variable {σ : Type} [Sink σ]

/-- Literals put their values on the stack. -/
theorem evalBlock_literals (look : String → Except ScopeError Function) (limit depth : Nat)
    (ps : List Printed) (a : Store σ) :
    evalBlock look limit (ps.length + 1) depth (literals ps) a =
      some (.done { a with stack := a.stack.extend (ps.map Printed.value) }) := by
  induction ps generalizing a with
  | nil => rfl
  | cons p ps ih =>
      have hpush : evalStmt look limit (evalBlock look limit (ps.length + 1)) (ps.length + 1) depth
          (.literal p.value p.loc) a =
            some (.done { a with stack := a.stack.push p.value }) := rfl
      have hextend : (a.stack.push p.value).extend (ps.map Printed.value) =
          a.stack.extend (p.value :: ps.map Printed.value) := by
        rw [← Stack.toList_inj]
        simp only [Stack.toList_extend, Stack.toList_push, List.append_assoc,
          List.singleton_append]
      rw [literals, List.map_cons, List.length_cons, evalBlock, hpush, List.map_cons, ← hextend]
      exact ih { a with stack := a.stack.push p.value }

end Run

theorem functions_literals (ps : List Printed) :
    (⟨literals ps, []⟩ : Program).functions = [] := by
  rw [Program.functions, literals, List.filterMap_map, List.filterMap_eq_nil_iff]
  exact fun _ _ => rfl

theorem globalScope_literals (ps : List Printed) :
    globalScope ⟨literals ps, []⟩ = .ok Scope.empty := by
  rw [globalScope, functions_literals]
  rfl

/-- The run of literals ends with their values on the stack, and prints nothing. -/
theorem exists_run_literals (ps : List Printed) (limit : Nat) :
    ∃ fuel m', (Machine.idle ⟨literals ps, []⟩ limit Transcript.empty).run fuel [] =
        some (.ok (ps.map Printed.value), m') ∧ m'.sink = Transcript.empty := by
  have hscope := globalScope_literals ps
  -- What the literals do is computed on the block, and the machine follows.
  have hsim := Machine.simulates_loaded (m := .idle ⟨literals ps, []⟩ limit Transcript.empty) []
    hscope (ps.length + 1)
  rw [Machine.idle, evalBlock_literals] at hsim
  rcases Machine.runFor_of_simulates hsim with ⟨fuel, ⟨ended, m'⟩, hrun, hreport⟩
  simp only [Machine.report, Ending.report, Report.mk.injEq] at hreport
  refine ⟨fuel, m', ?_, hreport.2.2.2⟩
  rw [Machine.run_of_load (Machine.load_eq hscope []), Machine.idle, hrun, Option.map_some,
    hreport.1, Stack.toList_extend]
  rfl

/-- Printed values read back: everything that is written when values are printed one after the
    other is a program, whose run from an empty stack succeeds with exactly these values on the
    stack and prints nothing. -/
theorem runSource_written (ps : List Printed) :
    ∃ fuel, runSource fuel (Sink.feed TextSink.empty ps).written [] =
      some (.ok ⟨ps.map Printed.value, []⟩) := by
  rcases exists_compile_written ps with ⟨qs, hvalues, hcompile⟩
  rcases exists_run_literals qs defaultLimit with ⟨fuel, m', hrun, hsink⟩
  refine ⟨fuel, ?_⟩
  simp only [runSource, hcompile, hrun, hsink, hvalues]
  rfl

end StackLang
