import CoLang.Operators
import Mathlib.Data.Int.ModEq
/-!
# Integer operators against exact integers

Integers are words of 64 bits with a sign. The operators on them are measured here by the integers
without bound: a sum, a difference or a product is the one word that is congruent to the exact
result, a quotient is the exact one toward zero unless it is the single one that no word holds, and
comparisons agree with the exact order (`BinaryOp.apply_int_exact`).
-/

namespace CoLang

variable {a b q z : Int} {n : Int64}

/-! ## Words -/

/-- The word is the only integer from -2^63 up to 2^63 that is congruent to the exact result modulo
2^64. -/
def WrapsTo (z : Int) (n : Int64) : Prop :=
  ∀ m : Int, -2 ^ 63 ≤ m ∧ m < 2 ^ 63 ∧ m ≡ z [ZMOD 2 ^ 64] ↔ m = n.toInt

theorem wrapsTo_of_bmod (h : n.toInt = z.bmod (2 ^ 64)) : WrapsTo z n := by
  intro m
  rw [h, eq_comm, Int.bmod_eq_iff (by decide), Int.modEq_comm, Int.modEq_iff_dvd]
  omega

/-! ## Quotients -/

/-- The exact quotient toward zero: what is left over is smaller than the divisor, and it is zero or
has the sign of the dividend. -/
def IsQuotient (a b q : Int) : Prop :=
  ∃ r, q * b + r = a ∧ r.natAbs < b.natAbs ∧ (r = 0 ∨ r.sign = a.sign)

theorem isQuotient_tdiv (hb : b ≠ 0) : IsQuotient a b (a.tdiv b) := by
  refine ⟨a.tmod b, Int.tdiv_mul_add_tmod a b, ?_, ?_⟩
  · rw [Int.natAbs_tmod]
    exact Nat.mod_lt _ (Int.natAbs_pos.2 hb)
  · rw [Int.sign_tmod]
    split
    case isTrue hdvd => exact .inl (Int.tmod_eq_zero_of_dvd hdvd)
    case isFalse => exact .inr rfl

theorem IsQuotient.eq_tdiv (hb : b ≠ 0) (h : IsQuotient a b q) : q = a.tdiv b := by
  obtain ⟨r, heq, hlt, hsign⟩ := h
  have hsum : r + b * q = a := by rw [← heq, Int.mul_comm, Int.add_comm]
  -- What is left over lies on the side of zero where the dividend lies.
  rcases Int.le_total 0 a with ha | ha
  · have hr : 0 ≤ r := by
      rcases hsign with rfl | hsign
      · exact Int.le_refl 0
      · rw [← Int.sign_nonneg_iff, hsign]
        exact Int.sign_nonneg_iff.2 ha
    exact ((Int.tdiv_tmod_unique ha hb).2 ⟨hsum, hr, by omega⟩).1.symm
  · have hr : r ≤ 0 := by
      rcases hsign with rfl | hsign
      · exact Int.le_refl 0
      · rw [← Int.sign_nonpos_iff, hsign]
        exact Int.sign_nonpos_iff.2 ha
    exact ((Int.tdiv_tmod_unique' ha hb).2 ⟨hsum, by omega, hr⟩).1.symm

theorem isQuotient_iff (hb : b ≠ 0) : IsQuotient a b q ↔ q = a.tdiv b := by
  constructor
  · exact IsQuotient.eq_tdiv hb
  · rintro rfl
    exact isQuotient_tdiv hb

/-- The quotient of two words is no word only for the least one divided by -1. -/
theorem toInt_div_ne_iff (a b : Int64) :
    (a / b).toInt ≠ a.toInt.tdiv b.toInt ↔ a.toInt = -2 ^ 63 ∧ b.toInt = -1 := by
  constructor
  · intro hne
    constructor
    · by_contra ha
      refine hne (Int64.toInt_div_of_ne_left a b fun hmin => ha ?_)
      rw [hmin, Int64.toInt_minValue]
    · by_contra hb
      refine hne (Int64.toInt_div_of_ne_right a b fun hone => hb ?_)
      rw [hone]
      rfl
  · rintro ⟨ha, hb⟩
    rw [Int64.toInt_div, ha, hb]
    decide

/-! ## Operators -/

theorem BinaryOp.apply_arith_ok {op : ArithOp} {a b n : Int64} (h : op.onInt a b = .ok n) :
    BinaryOp.apply (.arith op) (.int a) (.int b) = .ok (.int n) := by
  simp only [BinaryOp.apply, h, Except.map]

theorem BinaryOp.apply_div_of_ne {a b : Int64} (hb : b ≠ 0) :
    BinaryOp.apply (.arith .div) (.int a) (.int b) = .ok (.int (a / b)) :=
  apply_arith_ok (if_neg hb)

/-- A division fails exactly if the divisor is zero, and then it says so. -/
theorem BinaryOp.apply_div_error_iff (a b : Int64) :
    (∃ f, BinaryOp.apply (.arith .div) (.int a) (.int b) = .error f ∧
      f.kind = .divisionByZero) ↔ b.toInt = 0 := by
  rw [← Int64.toInt_zero, Int64.toInt_inj]
  constructor
  · rintro ⟨f, hf, -⟩
    by_contra hb
    rw [apply_div_of_ne hb] at hf
    cases hf
  · rintro rfl
    exact ⟨.dividedByZero a, rfl, rfl⟩

/-- **A division gives the exact quotient**, except that the one quotient which no word holds wraps
around. -/
theorem BinaryOp.apply_div_exact {a b : Int64} (hb : b.toInt ≠ 0) :
    ∃ q n, (∀ q', IsQuotient a.toInt b.toInt q' ↔ q' = q) ∧
      BinaryOp.apply (.arith .div) (.int a) (.int b) = .ok (.int n) ∧ WrapsTo q n ∧
      (n.toInt ≠ q ↔ a.toInt = -2 ^ 63 ∧ b.toInt = -1) := by
  have hne : b ≠ 0 := fun h => hb (by rw [h, Int64.toInt_zero])
  exact ⟨a.toInt.tdiv b.toInt, a / b, fun _ => isQuotient_iff hb, apply_div_of_ne hne,
    wrapsTo_of_bmod (Int64.toInt_div a b), toInt_div_ne_iff a b⟩

theorem BinaryOp.apply_order_exact (a b : Int64) :
    BinaryOp.apply (.order .lt) (.int a) (.int b) = .ok (.bool (a.toInt < b.toInt)) ∧
      BinaryOp.apply (.order .le) (.int a) (.int b) = .ok (.bool (a.toInt ≤ b.toInt)) ∧
      BinaryOp.apply (.order .gt) (.int a) (.int b) = .ok (.bool (a.toInt > b.toInt)) ∧
      BinaryOp.apply (.order .ge) (.int a) (.int b) = .ok (.bool (a.toInt ≥ b.toInt)) := by
  simp only [BinaryOp.apply, OrderOp.onInt, Int64.lt_iff_toInt_lt, Int64.le_iff_toInt_le, gt_iff_lt,
    ge_iff_le, and_self]

theorem BinaryOp.apply_equality_exact (a b : Int64) :
    BinaryOp.apply (.equality .eq) (.int a) (.int b) = .ok (.bool (a.toInt = b.toInt)) ∧
      BinaryOp.apply (.equality .ne) (.int a) (.int b) = .ok (.bool (a.toInt ≠ b.toInt)) := by
  have hsame : (a == b) = decide (a.toInt = b.toInt) := by
    rw [Bool.eq_iff_iff, beq_iff_eq, decide_eq_true_iff, Int64.toInt_inj]
  simp only [BinaryOp.apply, Val.same?, EqualityOp.holds, hsame, ne_eq, decide_not, and_self]

/-- **Integer operators compute the exact results modulo 2^64.** Sums, differences and products are
the only word congruent to the exact result. A division fails exactly if the divisor is zero, and
gives the exact quotient toward zero otherwise, which wraps around in a single case. Negation is
subtraction from zero, and comparisons are those of the exact integers. -/
theorem BinaryOp.apply_int_exact (a b : Int64) :
    (∃ n, BinaryOp.apply (.arith .add) (.int a) (.int b) = .ok (.int n) ∧
      WrapsTo (a.toInt + b.toInt) n) ∧
    (∃ n, BinaryOp.apply (.arith .sub) (.int a) (.int b) = .ok (.int n) ∧
      WrapsTo (a.toInt - b.toInt) n) ∧
    (∃ n, BinaryOp.apply (.arith .mul) (.int a) (.int b) = .ok (.int n) ∧
      WrapsTo (a.toInt * b.toInt) n) ∧
    ((∃ f, BinaryOp.apply (.arith .div) (.int a) (.int b) = .error f ∧
      f.kind = .divisionByZero) ↔ b.toInt = 0) ∧
    (b.toInt = 0 ∨ ∃ q n, (∀ q', IsQuotient a.toInt b.toInt q' ↔ q' = q) ∧
      BinaryOp.apply (.arith .div) (.int a) (.int b) = .ok (.int n) ∧ WrapsTo q n ∧
      (n.toInt ≠ q ↔ a.toInt = -2 ^ 63 ∧ b.toInt = -1)) ∧
    UnaryOp.apply .neg (.int a) = BinaryOp.apply (.arith .sub) (.int 0) (.int a) ∧
    (BinaryOp.apply (.order .lt) (.int a) (.int b) = .ok (.bool (a.toInt < b.toInt)) ∧
      BinaryOp.apply (.order .le) (.int a) (.int b) = .ok (.bool (a.toInt ≤ b.toInt)) ∧
      BinaryOp.apply (.order .gt) (.int a) (.int b) = .ok (.bool (a.toInt > b.toInt)) ∧
      BinaryOp.apply (.order .ge) (.int a) (.int b) = .ok (.bool (a.toInt ≥ b.toInt))) ∧
    BinaryOp.apply (.equality .eq) (.int a) (.int b) = .ok (.bool (a.toInt = b.toInt)) ∧
    BinaryOp.apply (.equality .ne) (.int a) (.int b) = .ok (.bool (a.toInt ≠ b.toInt)) := by
  refine ⟨⟨a + b, apply_arith_ok rfl, wrapsTo_of_bmod (Int64.toInt_add a b)⟩,
    ⟨a - b, apply_arith_ok rfl, wrapsTo_of_bmod (Int64.toInt_sub a b)⟩,
    ⟨a * b, apply_arith_ok rfl, wrapsTo_of_bmod (Int64.toInt_mul a b)⟩,
    apply_div_error_iff a b, ?_, ?_, apply_order_exact a b, apply_equality_exact a b⟩
  · by_cases hb : b.toInt = 0
    · exact .inl hb
    · exact .inr (apply_div_exact hb)
  · have hsub : BinaryOp.apply (.arith .sub) (.int 0) (.int a) = .ok (.int (0 - a)) :=
      apply_arith_ok rfl
    rw [hsub, Int64.zero_sub]
    rfl

end CoLang
