import Mathlib.Algebra.Order.Group.Unbundled.Int
import StackLang.Operator.Apply
import StackLang.Proofs.Classification

/-!
# Arithmetic

Operators compute what they stand for on unbounded integers, or say why they do not.

The operands and the results of a program are 64-bit integers, but what an operator has to give
is said without them: a sum, a difference or a product is that of the integers, a comparison is
that of their order, and a quotient is what leaves a remainder smaller than the divisor, on the
same side of zero as the dividend. A result that is no 64-bit integer is an overflow, which names
both operands. `Yields` lists all of this, with one case for each way an operator can end.

Only division needs an argument. The quotient is determined by its remainder, whatever the signs
are: `Truncates.eq_tdiv`. And its absolute value is at most that of the dividend, so there is
one pair of operands alone whose quotient does not fit: `exists_toInt_tdiv_iff`.

## Main definitions

* `Operator.Exact`: Sums, differences and products.
* `Operator.Truncates`: Quotients without their fraction.
* `Operator.Compares`: What a comparison says.
* `Operator.Yields`: What an operator gives on two values.

## Theorems

* `Operator.truncates_tdiv`, `Operator.Truncates.eq_tdiv`: Quotients exist and are unique.
* `Operator.exists_toInt_tdiv_iff`: The quotients that fit.
* `Operator.apply_eq_iff_yields`: Operators give what they should, and nothing else.
-/

namespace StackLang

namespace Operator

/-- The sum, the difference or the product of two integers. -/
inductive Exact (a b : Int) : Operator → Int → Prop
  | add : Exact a b .add (a + b)
  | sub : Exact a b .sub (a - b)
  | mul : Exact a b .mul (a * b)

/-- The quotient `q` of `a` by `b`, rounded toward zero. What remains is smaller than the
    divisor, and has the sign of the dividend if it is not zero. -/
def Truncates (a b q : Int) : Prop :=
  ∃ r, a = q * b + r ∧ |r| < |b| ∧ (r = 0 ∨ r.sign = a.sign)

/-- What a comparison says about two integers. -/
inductive Compares (a b : Int) : Operator → Prop → Prop
  | eq : Compares a b .eq (a = b)
  | gt : Compares a b .gt (a > b)
  | lt : Compares a b .lt (a < b)
  | ge : Compares a b .ge (a ≥ b)
  | le : Compares a b .le (a ≤ b)

/-- What an operator at `loc` gives on its left and right operand. -/
inductive Yields (loc : Location) : Operator → Value → Value → Except RuntimeError Value → Prop
  | exact {op : Operator} {a b w : Integer} (h : Exact a.toInt b.toInt op w.toInt) :
      Yields loc op (.int a) (.int b) (.ok (.int w))
  | overflow {op : Operator} {a b : Integer} {n : Int} (h : Exact a.toInt b.toInt op n)
      (hn : n < -2 ^ 63 ∨ 2 ^ 63 - 1 < n) :
      Yields loc op (.int a) (.int b) (.error ⟨.integerOverflow op a b, loc⟩)
  | quotient {a b w : Integer} (h : Truncates a.toInt b.toInt w.toInt) :
      Yields loc .div (.int a) (.int b) (.ok (.int w))
  | divisionByZero {a b : Integer} (hb : b.toInt = 0) :
      Yields loc .div (.int a) (.int b) (.error ⟨.divisionByZero, loc⟩)
  | quotientOverflow {a b : Integer} (ha : a.toInt = -2 ^ 63) (hb : b.toInt = -1) :
      Yields loc .div (.int a) (.int b) (.error ⟨.integerOverflow .div a b, loc⟩)
  | comparison {op : Operator} {a b : Integer} {p : Prop} {c : Bool}
      (h : Compares a.toInt b.toInt op p) (hc : c = true ↔ p) :
      Yields loc op (.int a) (.int b) (.ok (.bool c))
  | equality {a b c : Bool} (hc : c = true ↔ a = b) :
      Yields loc .eq (.bool a) (.bool b) (.ok (.bool c))
  /-- All that is left: operands that are not both integers, nor two booleans for `==`. -/
  | typeMismatch {op : Operator} {lhs rhs : Value}
      (hintegers : ¬ (lhs.type = .integer ∧ rhs.type = .integer))
      (hbooleans : ¬ (op = .eq ∧ lhs.type = .boolean ∧ rhs.type = .boolean)) :
      Yields loc op lhs rhs (.error ⟨.typeMismatch op lhs.type rhs.type, loc⟩)

section Division

variable {a b q : Int}

/-- The quotient of two integers leaves a remainder as it should. -/
theorem truncates_tdiv (hb : b ≠ 0) (a : Int) : Truncates a b (a.tdiv b) := by
  refine ⟨a.tmod b, ?_, ?_, ?_⟩
  · have hsum := Int.mul_tdiv_add_tmod a b
    rw [Int.mul_comm] at hsum
    exact hsum.symm
  · have hpos : 0 < b.natAbs := Int.natAbs_pos.2 hb
    have hlt : a.natAbs % b.natAbs < b.natAbs := Nat.mod_lt _ hpos
    rw [← Int.natAbs_tmod] at hlt
    rw [Int.abs_eq_natAbs, Int.abs_eq_natAbs]
    exact Int.ofNat_lt.2 hlt
  · by_cases hdvd : b ∣ a
    · exact .inl (Int.tmod_eq_zero_of_dvd hdvd)
    · refine .inr ?_
      rw [Int.sign_tmod, if_neg hdvd]

/-- A quotient is determined by the remainder that it leaves. -/
theorem Truncates.eq_tdiv (h : Truncates a b q) : a.tdiv b = q := by
  rcases h with ⟨r, hsum, hsmall, hsign⟩
  rw [Int.abs_eq_natAbs, Int.abs_eq_natAbs] at hsmall
  have hb : b ≠ 0 := by omega
  have hsum' : r + b * q = a := by
    rw [Int.mul_comm, Int.add_comm]
    exact hsum.symm
  -- The remainder is on the side of zero where the dividend is.
  rcases Int.le_total 0 a with ha | ha
  · have hr : 0 ≤ r := by
      rcases hsign with hzero | hsign
      · exact hzero.ge
      · rw [← Int.sign_nonneg_iff, hsign, Int.sign_nonneg_iff]
        exact ha
    exact ((Int.tdiv_tmod_unique ha hb).2 ⟨hsum', hr, by omega⟩).1
  · have hr : r ≤ 0 := by
      rcases hsign with hzero | hsign
      · exact hzero.le
      · rw [← Int.sign_nonpos_iff, hsign, Int.sign_nonpos_iff]
        exact ha
    exact ((Int.tdiv_tmod_unique' ha hb).2 ⟨hsum', by omega, hr⟩).1

/-- Halving is the least that a divisor other than one and minus one does. -/
theorem natAbs_tdiv_le_half (hb : 2 ≤ b.natAbs) (a : Int) :
    (a.tdiv b).natAbs ≤ a.natAbs / 2 := by
  rw [Int.natAbs_tdiv]
  exact Nat.div_le_div_left hb (by decide)

/-- All quotients of 64-bit integers are 64-bit integers, that of the least one by minus one
    apart. -/
theorem exists_toInt_tdiv_iff (a b : Integer) :
    (∃ w : Integer, w.toInt = a.toInt.tdiv b.toInt) ↔ ¬ (a.toInt = -2 ^ 63 ∧ b.toInt = -1) := by
  rw [exists_toInt_iff]
  have hmin := a.le_toInt
  have hmax := a.toInt_lt
  by_cases hone : b.toInt = -1
  · -- The quotient is the opposite of the dividend.
    have hneg : a.toInt.tdiv b.toInt = -a.toInt := by rw [hone, Int.tdiv_neg, Int.tdiv_one]
    rw [hneg]
    constructor
    · rintro ⟨_, hlt⟩ ⟨ha, _⟩
      omega
    · intro h
      have ha : a.toInt ≠ -2 ^ 63 := fun ha => h ⟨ha, hone⟩
      omega
  · refine iff_of_true ?_ fun h => hone h.2
    by_cases hhalf : 2 ≤ b.toInt.natAbs
    · have hle := natAbs_tdiv_le_half hhalf a.toInt
      omega
    · have hunit : b.toInt = 0 ∨ b.toInt = 1 := by omega
      rcases hunit with hzero | hunit
      · rw [hzero, Int.tdiv_zero]
        decide
      · rw [hunit, Int.tdiv_one]
        exact ⟨hmin, hmax⟩

end Division

section Results

variable {op : Operator} {a b w : Integer} {n : Int}

theorem exactly_of_toInt (h : w.toInt = n) : exactly op a b n = .ok (.int w) := by
  rw [exactly, Integer.ofInt?_eq_some_iff.2 h]

theorem exactly_of_overflow (h : ¬ ∃ w : Integer, w.toInt = n) :
    exactly op a b n = .error (.integerOverflow op a b) := by
  have hnone : Integer.ofInt? n = none := by
    rw [exists_toInt_iff] at h
    rw [ofInt?_eq_none_iff]
    omega
  rw [exactly, hnone]

/-- A division by what is not zero gives the quotient if that fits. -/
theorem apply_div (hb : b.toInt ≠ 0) :
    apply .div (.int a) (.int b) = exactly .div a b (a.toInt.tdiv b.toInt) := by
  have hb : b ≠ 0 := by
    rintro rfl
    exact hb Int64.toInt_zero
  rw [apply, if_neg hb]

theorem apply_of_exact (h : Exact a.toInt b.toInt op n) :
    apply op (.int a) (.int b) = exactly op a b n := by
  cases h <;> rfl

theorem apply_of_compares {p : Prop} {c : Bool} (h : Compares a.toInt b.toInt op p)
    (hc : c = true ↔ p) : apply op (.int a) (.int b) = .ok (.bool c) := by
  have hdecide : ∀ {p : Prop} [Decidable p], (c = true ↔ p) → decide p = c := by
    intro p _ hp
    rw [Bool.eq_iff_iff, decide_eq_true_iff, hp]
  cases h with
  | eq =>
      rw [Int64.toInt_inj] at hc
      rw [apply, hdecide hc]
  | gt | lt | ge | le => rw [apply, hdecide hc]

theorem apply_of_types {lhs rhs : Value}
    (hintegers : ¬ (lhs.type = .integer ∧ rhs.type = .integer))
    (hbooleans : ¬ (op = .eq ∧ lhs.type = .boolean ∧ rhs.type = .boolean)) :
    apply op lhs rhs = .error (.typeMismatch op lhs.type rhs.type) := by
  rcases lhs with a | a <;> rcases rhs with b | b
  · exact absurd ⟨rfl, rfl⟩ hintegers
  · cases op <;> rfl
  · cases op <;> rfl
  · cases op with
    | eq => exact absurd ⟨rfl, rfl, rfl⟩ hbooleans
    | add | sub | mul | div | gt | lt | ge | le => rfl

end Results

section Yielding

variable {op : Operator} {lhs rhs : Value} {a b : Integer} {loc : Location}
  {r : Except RuntimeError Value}

theorem overflow_iff {n : Int} :
    (n < -2 ^ 63 ∨ 2 ^ 63 - 1 < n) ↔ ¬ ∃ w : Integer, w.toInt = n := by
  rw [exists_toInt_iff]
  omega

/-- What is listed is what the operator gives. -/
theorem Yields.mapError_apply (h : Yields loc op lhs rhs r) :
    (op.apply lhs rhs).mapError (RuntimeError.mk · loc) = r := by
  cases h with
  | exact h => rw [apply_of_exact h, exactly_of_toInt rfl, Except.mapError]
  | overflow h hn => rw [apply_of_exact h, exactly_of_overflow (overflow_iff.1 hn), Except.mapError]
  | @quotient a b w h =>
      have hb : b.toInt ≠ 0 := by
        rcases h with ⟨r, _, hsmall, _⟩
        rintro hb
        rw [hb, Int.abs_eq_natAbs, Int.abs_eq_natAbs] at hsmall
        omega
      rw [apply_div hb, exactly_of_toInt h.eq_tdiv.symm, Except.mapError]
  | @divisionByZero a b hb =>
      have hb : b = 0 := Int64.toInt_inj.1 (hb.trans Int64.toInt_zero.symm)
      rw [apply, if_pos hb, Except.mapError]
  | @quotientOverflow a b ha hb =>
      have hover : ¬ ∃ w : Integer, w.toInt = a.toInt.tdiv b.toInt := by
        rw [exists_toInt_tdiv_iff]
        exact fun h => h ⟨ha, hb⟩
      rw [apply_div (by omega), exactly_of_overflow hover, Except.mapError]
  | comparison h hc => rw [apply_of_compares h hc, Except.mapError]
  | equality hc =>
      rw [apply, Except.mapError, ← Bool.eq_iff_iff.2 (hc.trans decide_eq_true_iff.symm)]
  | typeMismatch hintegers hbooleans => rw [apply_of_types hintegers hbooleans, Except.mapError]

/-- An operator of arithmetic other than division gives something that is listed. -/
theorem exists_yields_of_exact {n : Int} (h : Exact a.toInt b.toInt op n) :
    ∃ r, Yields loc op (.int a) (.int b) r := by
  by_cases hn : ∃ w : Integer, w.toInt = n
  · rcases hn with ⟨w, rfl⟩
    exact ⟨_, .exact h⟩
  · exact ⟨_, .overflow h (overflow_iff.2 hn)⟩

theorem exists_yields_of_compares {p : Prop} (h : Compares a.toInt b.toInt op p) :
    ∃ r, Yields loc op (.int a) (.int b) r := by
  classical
  exact ⟨_, .comparison h (decide_eq_true_iff (p := p))⟩

/-- A division gives something that is listed. -/
theorem exists_yields_div (a b : Integer) (loc : Location) :
    ∃ r, Yields loc .div (.int a) (.int b) r := by
  by_cases hzero : b.toInt = 0
  · exact ⟨_, .divisionByZero hzero⟩
  by_cases hleast : a.toInt = -2 ^ 63 ∧ b.toInt = -1
  · exact ⟨_, .quotientOverflow hleast.1 hleast.2⟩
  · rcases (exists_toInt_tdiv_iff a b).2 hleast with ⟨w, hw⟩
    have hquotient := truncates_tdiv hzero a.toInt
    rw [← hw] at hquotient
    exact ⟨_, .quotient hquotient⟩

/-- Nothing is missing from the list. -/
theorem exists_yields (op : Operator) (lhs rhs : Value) (loc : Location) :
    ∃ r, Yields loc op lhs rhs r := by
  by_cases hintegers : lhs.type = .integer ∧ rhs.type = .integer
  · rcases lhs with a | a
    · rcases rhs with b | b
      · cases op with
        | add => exact exists_yields_of_exact .add
        | sub => exact exists_yields_of_exact .sub
        | mul => exact exists_yields_of_exact .mul
        | div => exact exists_yields_div a b loc
        | eq => exact exists_yields_of_compares .eq
        | gt => exact exists_yields_of_compares .gt
        | lt => exact exists_yields_of_compares .lt
        | ge => exact exists_yields_of_compares .ge
        | le => exact exists_yields_of_compares .le
      · cases hintegers.2
    · cases hintegers.1
  by_cases hbooleans : op = .eq ∧ lhs.type = .boolean ∧ rhs.type = .boolean
  · rcases hbooleans with ⟨rfl, hlhs, hrhs⟩
    rcases lhs with a | a
    · cases hlhs
    · rcases rhs with b | b
      · cases hrhs
      · exact ⟨_, .equality (decide_eq_true_iff (p := a = b))⟩
  · exact ⟨_, .typeMismatch hintegers hbooleans⟩

end Yielding

/-- Operators are exact or say why not. Whatever the operator, its operands and the place of its
    statement are, it gives what `Yields` lists for them and nothing else: the result of the same
    operation on unbounded integers if that is a 64-bit integer, and an overflow with both
    operands otherwise; a quotient rounded toward zero, unless the divisor is zero or the least
    integer is divided by minus one; the truth of a comparison; and for operands of other types a
    mismatch with the types from left to right. -/
theorem apply_eq_iff_yields (op : Operator) (lhs rhs : Value) (loc : Location)
    (r : Except RuntimeError Value) :
    (op.apply lhs rhs).mapError (RuntimeError.mk · loc) = r ↔ Yields loc op lhs rhs r := by
  constructor
  · intro h
    rcases exists_yields op lhs rhs loc with ⟨r', hr'⟩
    have hsame : r' = r := hr'.mapError_apply.symm.trans h
    exact hsame ▸ hr'
  · exact Yields.mapError_apply

-- The least integer has a quotient by one, but none by minus one.
example : apply .div (.int Int64.minValue) (.int 1) = .ok (.int Int64.minValue) ∧
    apply .div (.int Int64.minValue) (.int (-1)) =
      .error (.integerOverflow .div Int64.minValue (-1)) := by
  decide +kernel

end Operator

end StackLang
