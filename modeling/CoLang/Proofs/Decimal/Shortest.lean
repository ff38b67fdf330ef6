import CoLang.Proofs.Decimal.Nearest
/-!
# The shortest decimal of a double rounds to it

The search for the shortest decimal tries one grid after the other. Whatever it finds rounds to the
double, since that is what it looks for (`rounds_of_onGrid`), and it finds something, since the last
grid it may try is finer than the distance between doubles (`isSome_onGrid`).
-/

namespace CoLang.Decimal

namespace Binary

/-- Whether `d` rounds to a double where a quarter of its last place is `num / den`. -/
def holds (b : Binary) (num den d : Nat) : Bool :=
  if b.mantissa % 2 = 0 then
    (4 * b.mantissa - b.below) * num ≤ d * den && d * den ≤ (4 * b.mantissa + 2) * num
  else (4 * b.mantissa - b.below) * num < d * den && d * den < (4 * b.mantissa + 2) * num

theorem holds_iff {b : Binary} (hm : 0 < b.mantissa) {num den d : Nat} {unit : ℚ} (hden : 0 < den)
    (hunit : 0 < unit) (hquarter : (num : ℚ) / den * unit = b.quarter) :
    b.holds num den d = true ↔ b.Rounds (d * unit) := by
  have hdenQ : (0 : ℚ) < den := by exact_mod_cast hden
  have hbelow := b.below_le
  have hlow :
      (((4 * b.mantissa - b.below) * num : Nat) : ℚ) = (4 * b.mantissa - b.below) * num := by
    rw [Nat.cast_mul, Nat.cast_sub (by omega)]
    push_cast
    ring
  -- Comparisons are multiplied by the denominator and divided by the unit.
  have hle : (4 * b.mantissa - b.below) * num ≤ d * den ↔
      (4 * b.mantissa - b.below) * b.quarter ≤ d * unit := by
    rw [← hquarter, ← mul_assoc, mul_le_mul_iff_left₀ hunit, ← mul_div_assoc, div_le_iff₀ hdenQ,
      ← hlow]
    norm_cast
  have hge : d * den ≤ (4 * b.mantissa + 2) * num ↔
      d * unit ≤ (4 * b.mantissa + 2) * b.quarter := by
    rw [← hquarter, ← mul_assoc, mul_le_mul_iff_left₀ hunit, ← mul_div_assoc, le_div_iff₀ hdenQ]
    norm_cast
  have hlt : (4 * b.mantissa - b.below) * num < d * den ↔
      (4 * b.mantissa - b.below) * b.quarter < d * unit := by
    rw [← hquarter, ← mul_assoc, mul_lt_mul_iff_left₀ hunit, ← mul_div_assoc, div_lt_iff₀ hdenQ,
      ← hlow]
    norm_cast
  have hgt : d * den < (4 * b.mantissa + 2) * num ↔
      d * unit < (4 * b.mantissa + 2) * b.quarter := by
    rw [← hquarter, ← mul_assoc, mul_lt_mul_iff_left₀ hunit, ← mul_div_assoc, lt_div_iff₀ hdenQ]
    norm_cast
  by_cases heven : b.mantissa % 2 = 0
  · simp only [holds, if_pos heven, Bool.and_eq_true, decide_eq_true_eq]
    rw [hle, hge]
    exact ⟨fun h => ⟨h.1, h.2, fun hodd => by omega⟩, fun h => ⟨h.low, h.high⟩⟩
  · simp only [holds, if_neg heven, Bool.and_eq_true, decide_eq_true_eq]
    rw [hlt, hgt]
    exact ⟨fun h => ⟨h.1.le, h.2.le, fun _ => h⟩, fun h => h.odd (by omega)⟩

/-- A quarter of the last place on the grid of multiples of `10 ^ k`, as a fraction. -/
def grid (b : Binary) (k : Int) : Nat × Nat :=
  scaled 10 (scaled 2 1 1 (b.exponent - 2)).1 (scaled 2 1 1 (b.exponent - 2)).2 (-k)

theorem grid_quarter (b : Binary) (k : Int) :
    0 < (b.grid k).2 ∧ ((b.grid k).1 : ℚ) / (b.grid k).2 * 10 ^ k = b.quarter := by
  obtain ⟨hs, hsv⟩ := scaled_value 1 (by norm_num : 0 < 2) one_pos (b.exponent - 2)
  obtain ⟨hg, hgv⟩ := scaled_value (scaled 2 1 1 (b.exponent - 2)).1 (by norm_num : 0 < 10) hs (-k)
  refine ⟨hg, ?_⟩
  rw [grid, hgv, hsv, quarter, zpow_neg]
  push_cast
  field_simp

end Binary

theorem onGrid_eq (b : Binary) (k : Int) :
    onGrid b k =
      let (num, den) := b.grid k
      let value := 4 * b.mantissa * num
      let below := value / den
      match b.holds num den below, b.holds num den (below + 1) with
      | true, true =>
        if value - below * den < (below + 1) * den - value then some ⟨below, k⟩
        else some ⟨below + 1, k⟩
      | true, false => some ⟨below, k⟩
      | false, true => some ⟨below + 1, k⟩
      | false, false => none :=
  rfl

/-- What stands for a double on a grid rounds to it. -/
theorem rounds_of_onGrid {b : Binary} {k : Int} {d : Decimal} (hm : 0 < b.mantissa)
    (h : onGrid b k = some d) : b.Rounds d.value := by
  obtain ⟨hden, hquarter⟩ := b.grid_quarter k
  suffices hd : d.exponent = k ∧ b.holds (b.grid k).1 (b.grid k).2 d.digits = true by
    obtain ⟨rfl, hholds⟩ := hd
    exact (Binary.holds_iff hm hden (by positivity) hquarter).1 hholds
  rw [onGrid_eq] at h
  generalize b.grid k = g at h
  obtain ⟨num, den⟩ := g
  simp only at h
  split at h
  · next hbelow habove =>
    split at h
    · cases h
      exact ⟨rfl, hbelow⟩
    · cases h
      exact ⟨rfl, habove⟩
  · next hbelow _ =>
    cases h
    exact ⟨rfl, hbelow⟩
  · next _ habove =>
    cases h
    exact ⟨rfl, habove⟩
  · cases h

/-- A grid finer than a quarter of the last place has a point that rounds to the double. -/
theorem isSome_onGrid {b : Binary} {k : Int} (hm : 0 < b.mantissa) (hk : (10 : ℚ) ^ k < b.quarter) :
    (onGrid b k).isSome = true := by
  obtain ⟨hden, hquarter⟩ := b.grid_quarter k
  have hholds : b.holds (b.grid k).1 (b.grid k).2 (4 * b.mantissa * (b.grid k).1 / (b.grid k).2) =
      true := by
    have hdenQ : (0 : ℚ) < (b.grid k).2 := by exact_mod_cast hden
    have hunit : (0 : ℚ) < 10 ^ k := by positivity
    have hq := b.quarter_pos
    have hone : (1 : ℚ) ≤ b.below := by
      unfold Binary.below
      split <;> norm_num
    rw [Binary.holds_iff hm hden hunit hquarter]
    -- The point below the double is at most one step of the grid away.
    have hfloor := Nat.div_add_mod (4 * b.mantissa * (b.grid k).1) (b.grid k).2
    have hmod := Nat.mod_lt (4 * b.mantissa * (b.grid k).1) hden
    generalize 4 * b.mantissa * (b.grid k).1 / (b.grid k).2 = below at *
    have hle : (b.grid k).2 * below ≤ 4 * b.mantissa * (b.grid k).1 := by omega
    have hlt : 4 * b.mantissa * (b.grid k).1 < (b.grid k).2 * (below + 1) := by
      rw [Nat.mul_add_one]
      omega
    have hleQ : (below : ℚ) * 10 ^ k ≤ 4 * b.mantissa * b.quarter := by
      rw [← hquarter, ← mul_assoc, mul_le_mul_iff_left₀ hunit, ← mul_div_assoc, le_div_iff₀ hdenQ]
      rw [mul_comm] at hle
      exact_mod_cast hle
    have hltQ : 4 * b.mantissa * b.quarter < (below + 1 : ℚ) * 10 ^ k := by
      rw [← hquarter, ← mul_assoc, mul_lt_mul_iff_left₀ hunit, ← mul_div_assoc, div_lt_iff₀ hdenQ]
      rw [mul_comm (b.grid k).2] at hlt
      exact_mod_cast hlt
    have hlow : (4 * b.mantissa - b.below) * b.quarter < below * 10 ^ k := by nlinarith
    have hhigh : below * 10 ^ k < (4 * b.mantissa + 2) * b.quarter := by nlinarith
    exact ⟨hlow.le, hhigh.le, fun _ => ⟨hlow, hhigh⟩⟩
  rw [onGrid_eq]
  generalize b.grid k = g at *
  obtain ⟨num, den⟩ := g
  simp only at hholds
  simp only [hholds]
  split
  · split <;> rfl
  · rfl
  · next h _ => cases h
  · next h _ => cases h

theorem rounds_of_firstHit {b : Binary} (hm : 0 < b.mantissa) {count : Nat} {k : Int} {d : Decimal}
    (h : firstHit b count k = some d) : b.Rounds d.value := by
  induction count generalizing k with
  | zero => cases h
  | succ count ih =>
    rw [firstHit] at h
    split at h
    · next hit =>
      cases h
      exact rounds_of_onGrid hm hit
    · exact ih h

theorem isSome_firstHit {b : Binary} {count tries : Nat} {k : Int} (htries : tries < count)
    (h : (onGrid b (k - tries)).isSome = true) : (firstHit b count k).isSome = true := by
  induction count generalizing k tries with
  | zero => omega
  | succ count ih =>
    rw [firstHit]
    cases hit : onGrid b k with
    | some d => rfl
    | none =>
      cases tries with
      | zero =>
        rw [Nat.cast_zero, sub_zero, hit] at h
        cases h
      | succ tries =>
        refine ih (by omega : tries < count) ?_
        have hk : k - (tries + 1 : Nat) = k - 1 - tries := by
          push_cast
          ring
        rw [← hk]
        exact h

theorem pow_magnitude_le {num den : Nat} (hnum : 0 < num) (hden : 0 < den) :
    (10 : ℚ) ^ (magnitude num den - 1) ≤ num / den := by
  have hnumQ : (0 : ℚ) < num := by exact_mod_cast hnum
  have hdenQ : (0 : ℚ) < den := by exact_mod_cast hden
  unfold magnitude
  split
  · next hle =>
    obtain ⟨hdigits, -⟩ := digits_bounds (Nat.div_pos hle hden)
    have hlen : 0 < (Nat.toDigits 10 (num / den)).length := Nat.length_toDigits_pos
    generalize (Nat.toDigits 10 (num / den)).length = len at *
    have hcast : (len : Int) - 1 = (len - 1 : Nat) := by omega
    rw [hcast, zpow_natCast, le_div_iff₀ hdenQ]
    exact_mod_cast (Nat.le_div_iff_mul_le hden).1 hdigits
  · next hlt =>
    obtain ⟨-, hdigits⟩ := digits_bounds (Nat.div_pos (not_le.1 hlt).le hnum)
    generalize (Nat.toDigits 10 (den / num)).length = len at *
    have hcast : (1 : Int) - len - 1 = -(len : Int) := by ring
    rw [hcast, zpow_neg, zpow_natCast, inv_le_iff_one_le_mul₀ (by positivity), ← mul_div_right_comm,
      le_div_iff₀ hdenQ, one_mul]
    rw [Nat.div_lt_iff_lt_mul hnum, mul_comm] at hdigits
    exact_mod_cast hdigits.le

/-- **The shortest decimal of a double rounds to it.** In particular there is one among those that
are tried. -/
theorem rounds_shortest {b : Binary} (hb : b.IsDouble) : b.Rounds (shortest b).value := by
  obtain ⟨hden, hvalue⟩ := scaled_value b.mantissa (by norm_num : 0 < 2) one_pos b.exponent
  have hmQ : (0 : ℚ) < b.mantissa := by exact_mod_cast hb.pos
  rcases hs : scaled 2 b.mantissa 1 b.exponent with ⟨num, den⟩
  rw [hs, Nat.cast_one, div_one, Nat.cast_ofNat, b.zpow_exponent] at hvalue
  rw [hs] at hden
  simp only at hden hvalue
  have hq := b.quarter_pos
  have hnum : 0 < num := by
    rw [Nat.pos_iff_ne_zero]
    rintro rfl
    rw [Nat.cast_zero, zero_div] at hvalue
    have : 0 < b.mantissa * (4 * b.quarter) := by positivity
    linarith
  -- The last of the grids is finer than a quarter of the last place, as a double has 53 places.
  have hfine : (10 : ℚ) ^ (magnitude num den + 1 - (23 : Nat)) < b.quarter := by
    have hpow := pow_magnitude_le hnum hden
    have hlt : (b.mantissa : ℚ) < 2 ^ 53 := by exact_mod_cast hb.lt
    have hsplit : magnitude num den + 1 - (23 : Nat) = magnitude num den - 1 + -21 := by
      push_cast
      ring
    rw [hsplit, zpow_add₀ (by norm_num)]
    rw [hvalue] at hpow
    norm_num
    nlinarith
  have hsome := isSome_firstHit (by norm_num : 23 < 24) (isSome_onGrid hb.pos hfine)
  obtain ⟨d, hd⟩ := Option.isSome_iff_exists.1 hsome
  have hshortest : shortest b = d := by
    simp only [shortest, hs, hd, Option.getD_some]
  rw [hshortest]
  exact rounds_of_firstHit hb.pos hd

end CoLang.Decimal
