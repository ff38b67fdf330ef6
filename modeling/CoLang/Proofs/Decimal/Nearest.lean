import CoLang.Decimal.Nearest
import Mathlib
/-!
# Reading a decimal gives the double it rounds to

A number *rounds to* a double (`Binary.Rounds`) if it is nearer to it than to its neighbours, or
halfway to one of them and the double is the even one. The bits that reading computes on integers
are those of the double that the decimal rounds to (`toFloat_of_rounds`).

The last binary place of a double decides how it is computed, so the proof first finds the place
(`Scale`, `Binary.IsDouble.exponent_of_scale`) and then rounds to whole numbers of it.
-/

namespace CoLang.Decimal

/-! ## Bits -/

section Bits

open Float.Model Float.Model.UnpackedFloat

theorem toBits_ofBits {bits : UInt64} (h : Format.binary64.Valid bits.toBitVec) :
    (Float.ofBits bits).toBits = bits := by
  have hpack := pack_unpack_of_valid h
  simp only [Float.ofBits, Float.Model.ofBits, Float.toBits, Float.Model.pack, hpack]

theorem valid_of_biased_ne {b : BitVec Format.binary64.numBits}
    (h : b.toNat / 2 ^ 52 % 2 ^ 11 ≠ 2047) : Format.binary64.Valid b := by
  refine ⟨fun hx => absurd ?_ h⟩
  have hnat := congrArg BitVec.toNat hx
  rw [unpackExponent, BitVec.toNat_cast, BitVec.extractLsb_toNat, Nat.shiftRight_eq_div_pow] at hnat
  exact hnat

theorem isFinite_ofBits {bits : Nat} (hlt : bits < 2 ^ 64) (h : bits / 2 ^ 52 % 2 ^ 11 ≠ 2047) :
    isFinite (Float.ofBits (UInt64.ofNat bits)) = true := by
  have hnat : (UInt64.ofNat bits).toNat = bits := by
    rw [UInt64.toNat_ofNat']
    exact Nat.mod_eq_of_lt hlt
  have hvalid : Float.Model.Format.binary64.Valid (UInt64.ofNat bits).toBitVec := by
    refine valid_of_biased_ne ?_
    rw [UInt64.toNat_toBitVec, hnat]
    exact h
  rw [isFinite, toBits_ofBits hvalid, hnat]
  simp only [classify, Nat.pow_eq, if_neg h]
  by_cases hbiased : bits / 2 ^ 52 % 2 ^ 11 = 0
  · by_cases hfraction : bits % 2 ^ 52 = 0
    · rw [if_pos hbiased, if_pos hfraction]
    · rw [if_pos hbiased, if_neg hfraction]
  · rw [if_neg hbiased]

end Bits

/-! ## Values -/

/-- The number a decimal stands for. -/
def value (d : Decimal) : ℚ := d.digits * 10 ^ d.exponent

theorem scaled_value {base den : Nat} (num : Nat) (hbase : 0 < base) (hden : 0 < den) (e : Int) :
    0 < (scaled base num den e).2 ∧
      ((scaled base num den e).1 : ℚ) / (scaled base num den e).2 = num / den * base ^ e := by
  have hb : (base : ℚ) ≠ 0 := by positivity
  have hd : (den : ℚ) ≠ 0 := by positivity
  cases e with
  | ofNat e =>
    refine ⟨hden, ?_⟩
    simp only [scaled, Nat.pow_eq, Int.ofNat_eq_natCast, zpow_natCast]
    push_cast
    ring
  | negSucc e =>
    have hpow : 0 < base ^ (e + 1) := by positivity
    refine ⟨Nat.mul_pos hden hpow, ?_⟩
    simp only [scaled, Nat.pow_eq, zpow_negSucc]
    push_cast
    field_simp

/-! ## Rounding to a whole number -/

/-- The whole number nearest to `n / d`, the even one of two that are equally near. -/
def roundEven (n d : Nat) : Nat :=
  if 2 * (n % d) > d || (2 * (n % d) = d && n / d % 2 = 1) then n / d + 1 else n / d

theorem roundEven_eq {n d m : Nat} (hd : 0 < d) (hlow : 2 * m * d ≤ 2 * n + d)
    (hhigh : 2 * n ≤ 2 * m * d + d)
    (hodd : m % 2 = 1 → 2 * m * d < 2 * n + d ∧ 2 * n < 2 * m * d + d) : roundEven n d = m := by
  have hn : n / d * d + n % d = n := Nat.div_add_mod' n d
  have hr : n % d < d := Nat.mod_lt n hd
  unfold roundEven
  generalize n / d = q at *
  generalize n % d = r at *
  -- The quotient is the nearest number or the one below it, and the remainder tells which.
  have hle : q ≤ m := by
    by_contra h
    have hmul : (m + 1) * d ≤ q * d := Nat.mul_le_mul_right d (by omega)
    nlinarith
  have hge : m ≤ q + 1 := by
    by_contra h
    have hmul : (q + 2) * d ≤ m * d := Nat.mul_le_mul_right d (by omega)
    nlinarith
  rcases Nat.lt_or_eq_of_le hle with hlt | rfl
  · obtain rfl : m = q + 1 := by omega
    rw [if_pos]
    have h1 : 2 * (q + 1) * d = 2 * (q * d) + 2 * d := by ring
    rw [h1] at hlow hodd
    have hrd : d ≤ 2 * r := by omega
    simp only [Bool.or_eq_true, decide_eq_true_eq, Bool.and_eq_true]
    omega
  · rw [if_neg]
    have h1 : 2 * q * d = 2 * (q * d) := by ring
    rw [h1] at hhigh hodd
    simp only [Bool.or_eq_true, decide_eq_true_eq, Bool.and_eq_true]
    omega

theorem roundEven_le {n d m : Nat} (hd : 0 < d) (h : n < m * d) : roundEven n d ≤ m := by
  have hlt : n / d < m := (Nat.div_lt_iff_lt_mul hd).2 h
  unfold roundEven
  split <;> omega

/-! ## Rounding to a double -/

/-- Whether `2 ^ e` is the worth of the last binary place of a double next to `v`: there are 53
binary places above it, unless it is the least one. -/
structure Scale (e : Int) (v : ℚ) : Prop where
  least : -1074 ≤ e
  lt : v < 2 ^ 53 * 2 ^ e
  le : 2 ^ 52 * 2 ^ e ≤ v ∨ e = -1074

theorem log2_quotient {num den : Nat} (hnum : 0 < num) (hden : 0 < den) :
    (2 : ℚ) ^ ((num.log2 : Int) - den.log2 - 1) ≤ num / den ∧
      (num : ℚ) / den < 2 ^ ((num.log2 : Int) - den.log2 + 1) := by
  have h2 : (2 : ℚ) ≠ 0 := by norm_num
  have hdenQ : (0 : ℚ) < den := by exact_mod_cast hden
  have hnum_le : (2 : ℚ) ^ (num.log2 : Int) ≤ num := by
    rw [zpow_natCast]
    exact_mod_cast Nat.log2_self_le (by omega)
  have hnum_lt : (num : ℚ) < 2 ^ ((num.log2 : Int) + 1) := by
    rw [← Nat.cast_succ, zpow_natCast]
    exact_mod_cast Nat.lt_log2_self
  have hden_le : (2 : ℚ) ^ (den.log2 : Int) ≤ den := by
    rw [zpow_natCast]
    exact_mod_cast Nat.log2_self_le (by omega)
  have hden_lt : (den : ℚ) < 2 ^ ((den.log2 : Int) + 1) := by
    rw [← Nat.cast_succ, zpow_natCast]
    exact_mod_cast Nat.lt_log2_self
  constructor
  · rw [le_div_iff₀ hdenQ]
    calc (2 : ℚ) ^ ((num.log2 : Int) - den.log2 - 1) * den
        ≤ 2 ^ ((num.log2 : Int) - den.log2 - 1) * 2 ^ ((den.log2 : Int) + 1) := by gcongr
      _ = 2 ^ (num.log2 : Int) := by rw [← zpow_add₀ h2]; congr 1; ring
      _ ≤ num := hnum_le
  · rw [div_lt_iff₀ hdenQ]
    calc (num : ℚ) < 2 ^ ((num.log2 : Int) + 1) := hnum_lt
      _ = 2 ^ ((num.log2 : Int) - den.log2 + 1) * 2 ^ (den.log2 : Int) := by
        rw [← zpow_add₀ h2]; congr 1; ring
      _ ≤ 2 ^ ((num.log2 : Int) - den.log2 + 1) * den := by gcongr

/-- The bits of the double of the whole number nearest to `n / d`, in places worth `2 ^ e`. -/
def placedBits (n d : Nat) (e : Int) : Nat :=
  min (if roundEven n d < 2 ^ 52 then roundEven n d
    else (e + 1074).toNat * 2 ^ 52 + roundEven n d) (2047 * 2 ^ 52)

theorem nearestBits_of_pos {num den : Nat} (hnum : 0 < num) {e : Int}
    (he : max ((num.log2 : Int) - den.log2 - 53) (-1074) = e) {n d : Nat}
    (hs : scaled 2 num den (-e) = (n, d)) :
    nearestBits num den =
      if 2 ^ 53 ≤ n / d then placedBits n (d * 2) (e + 1) else placedBits n d e := by
  have hmin : ∀ a : Nat, (if a < 2047 * 2 ^ 52 then a else 2047 * 2 ^ 52) =
      min a (2047 * 2 ^ 52) := by
    intro a
    split <;> omega
  simp only [nearestBits, he, hs, if_neg hnum.ne', Nat.pow_eq, hmin]
  split
  · rfl
  · rfl

/-- A fraction is rounded to a whole number of units in the last place. -/
theorem nearestBits_eq {num den : Nat} (hnum : 0 < num) (hden : 0 < den) :
    ∃ (n d : Nat) (e : Int), 0 < d ∧ (n : ℚ) / d * 2 ^ e = num / den ∧ Scale e (num / den) ∧
      nearestBits num den = placedBits n d e := by
  have h2 : (2 : ℚ) ≠ 0 := by norm_num
  obtain ⟨hv_le, hv_lt⟩ := log2_quotient hnum hden
  obtain ⟨e, he⟩ : ∃ e, max ((num.log2 : Int) - den.log2 - 53) (-1074) = e := ⟨_, rfl⟩
  obtain ⟨hd, hquot⟩ := scaled_value num (by norm_num : 0 < 2) hden (-e)
  rcases hs : scaled 2 num den (-e) with ⟨n, d⟩
  rw [nearestBits_of_pos hnum he hs]
  rw [hs] at hd hquot
  simp only at hd hquot
  generalize (num : ℚ) / den = v at *
  have hdQ : (0 : ℚ) < d := by exact_mod_cast hd
  have hpos : (0 : ℚ) < 2 ^ e := by positivity
  have hvalue : (n : ℚ) / d * 2 ^ e = v := by
    rw [hquot]
    push_cast
    rw [mul_assoc, ← zpow_add₀ h2, neg_add_cancel, zpow_zero, mul_one]
  have hdigits : 2 ^ 53 ≤ n / d ↔ (2 : ℚ) ^ 53 * 2 ^ e ≤ v := by
    rw [← hvalue, mul_le_mul_iff_left₀ hpos, le_div_iff₀ hdQ, Nat.le_div_iff_mul_le hd]
    norm_cast
  have hlt : v < 2 ^ 54 * 2 ^ e := by
    refine hv_lt.trans_le ?_
    rw [← zpow_natCast, ← zpow_add₀ h2]
    exact zpow_le_zpow_right₀ (by norm_num) (by push_cast; omega)
  have hle : 2 ^ 52 * 2 ^ e ≤ v ∨ e = -1074 := by
    by_cases hleast : e = -1074
    · exact .inr hleast
    · refine .inl (le_trans ?_ hv_le)
      rw [← zpow_natCast, ← zpow_add₀ h2]
      exact zpow_le_zpow_right₀ (by norm_num) (by push_cast; omega)
  by_cases h53 : 2 ^ 53 ≤ n / d
  · have hnext : (2 : ℚ) ^ (e + 1) = 2 ^ e * 2 := zpow_add_one₀ h2 e
    refine ⟨n, d * 2, e + 1, by omega, ?_, ⟨by omega, ?_, .inl ?_⟩, if_pos h53⟩
    · rw [← hvalue, hnext]
      push_cast
      field_simp
    · linarith
    · have := hdigits.1 h53
      linarith
  · refine ⟨n, d, e, hd, hvalue, ⟨by omega, ?_, hle⟩, if_neg h53⟩
    rw [hdigits] at h53
    exact not_le.1 h53

namespace Binary

/-- Whether the parts are those of a double. -/
structure IsDouble (b : Binary) : Prop where
  pos : 0 < b.mantissa
  lt : b.mantissa < 2 ^ 53
  least : -1074 ≤ b.exponent
  greatest : b.exponent ≤ 971
  places : 2 ^ 52 ≤ b.mantissa ∨ b.exponent = -1074
  narrow : b.mantissa = 2 ^ 52 → b.exponent ≠ -1074 → b.narrowBelow = true

/-- The bits of a double without its sign. -/
def bits (b : Binary) : Nat :=
  (b.exponent + 1074).toNat * 2 ^ 52 + b.mantissa

/-- A quarter of the worth of the last binary place. -/
def quarter (b : Binary) : ℚ := 2 ^ (b.exponent - 2)

/-- How many quarters of the last place the least number that rounds to a double lies below it. -/
def below (b : Binary) : Nat := if b.narrowBelow then 1 else 2

/-- Whether a number rounds to a double: it is nearer to it than to its neighbours, or halfway to
one of them and the double is the even one. -/
structure Rounds (b : Binary) (v : ℚ) : Prop where
  low : (4 * b.mantissa - b.below) * b.quarter ≤ v
  high : v ≤ (4 * b.mantissa + 2) * b.quarter
  odd : b.mantissa % 2 = 1 →
    (4 * b.mantissa - b.below) * b.quarter < v ∧ v < (4 * b.mantissa + 2) * b.quarter

theorem quarter_pos (b : Binary) : 0 < b.quarter := by
  unfold quarter
  positivity

theorem zpow_exponent (b : Binary) : (2 : ℚ) ^ b.exponent = 4 * b.quarter := by
  rw [quarter, zpow_sub₀ (by norm_num)]
  norm_num
  ring

theorem below_le (b : Binary) : b.below ≤ 2 := by
  unfold below
  split <;> omega

/-- The places of a double are those of the numbers that round to it. Only below a power of two,
where the doubles lie closer, some of them have one place more. -/
theorem IsDouble.exponent_of_scale {b : Binary} {v : ℚ} {e : Int} (hb : b.IsDouble)
    (hv : b.Rounds v) (he : Scale e v) :
    e = b.exponent ∨ e = b.exponent - 1 ∧ b.mantissa = 2 ^ 52 := by
  have hq := b.quarter_pos
  have hbelow : (b.below : ℚ) ≤ 2 := by exact_mod_cast b.below_le
  have hlow : (4 * b.mantissa - 2) * b.quarter ≤ v :=
    le_trans (mul_le_mul_of_nonneg_right (by linarith) hq.le) hv.low
  rcases lt_trichotomy e b.exponent with hlt | heq | hgt
  · have hnormal : 2 ^ 52 ≤ b.mantissa := by
      have := he.least
      have := hb.places
      omega
    have hnormalQ : (2 : ℚ) ^ 52 ≤ b.mantissa := by exact_mod_cast hnormal
    have hfar : ¬e ≤ b.exponent - 2 := by
      intro hfar
      have hpow : (2 : ℚ) ^ e ≤ b.quarter := zpow_le_zpow_right₀ (by norm_num) hfar
      have := he.lt
      nlinarith
    obtain rfl : e = b.exponent - 1 := by omega
    refine .inr ⟨rfl, ?_⟩
    have hpow : (2 : ℚ) ^ (b.exponent - 1) = 2 * b.quarter := by
      rw [zpow_sub_one₀ (by norm_num), b.zpow_exponent]
      ring
    by_contra hne
    have hmore : (2 : ℚ) ^ 52 + 1 ≤ b.mantissa := by exact_mod_cast (by omega : 2 ^ 52 + 1 ≤ _)
    have := he.lt
    rw [hpow] at this
    nlinarith
  · exact .inl heq
  · have hle : (2 : ℚ) ^ 52 * 2 ^ e ≤ v := by
      refine he.le.resolve_right ?_
      have := hb.least
      omega
    have hpow : (2 : ℚ) ^ (b.exponent + 1) ≤ 2 ^ e := zpow_le_zpow_right₀ (by norm_num) hgt
    rw [zpow_add_one₀ (by norm_num), b.zpow_exponent] at hpow
    have hmost : (b.mantissa : ℚ) + 1 ≤ 2 ^ 53 := by exact_mod_cast hb.lt
    have := hv.high
    nlinarith

/-- In units of the last place, a number that rounds to a double is rounded to its mantissa. -/
theorem Rounds.roundEven_eq {b : Binary} {n d : Nat} (hd : 0 < d)
    (hv : b.Rounds (n / d * 2 ^ b.exponent)) : roundEven n d = b.mantissa := by
  have hq := b.quarter_pos
  have hdQ : (0 : ℚ) < d := by exact_mod_cast hd
  have hbelow : (b.below : ℚ) ≤ 2 := by exact_mod_cast b.below_le
  have hn : (n : ℚ) / d * d = n := div_mul_cancel₀ _ hdQ.ne'
  rw [b.zpow_exponent] at hv
  obtain ⟨hlow, hhigh, hodd⟩ := hv
  generalize (n : ℚ) / d = x at *
  have hx : x * (4 * b.quarter) = 4 * x * b.quarter := by ring
  rw [hx] at hlow hhigh hodd
  rw [mul_le_mul_iff_left₀ hq] at hlow hhigh
  rw [mul_lt_mul_iff_left₀ hq, mul_lt_mul_iff_left₀ hq] at hodd
  refine Decimal.roundEven_eq hd ?_ ?_ fun hm => ⟨?_, ?_⟩
  · have : (2 * b.mantissa * d : ℚ) ≤ 2 * n + d := by rw [← hn]; nlinarith
    exact_mod_cast this
  · have : (2 * n : ℚ) ≤ 2 * b.mantissa * d + d := by rw [← hn]; nlinarith
    exact_mod_cast this
  · have hlt := (hodd hm).1
    have : (2 * b.mantissa * d : ℚ) < 2 * n + d := by rw [← hn]; nlinarith
    exact_mod_cast this
  · have hlt := (hodd hm).2
    have : (2 * n : ℚ) < 2 * b.mantissa * d + d := by rw [← hn]; nlinarith
    exact_mod_cast this

/-- Just below a power of two, a number that rounds to it does so in units of half the place. -/
theorem Rounds.roundEven_half {b : Binary} {n d : Nat} (hd : 0 < d) (hm : b.mantissa = 2 ^ 52)
    (hnarrow : b.narrowBelow = true) (hv : b.Rounds (n / d * 2 ^ (b.exponent - 1)))
    (hlt : (n : ℚ) / d * 2 ^ (b.exponent - 1) < 2 ^ 53 * 2 ^ (b.exponent - 1)) :
    roundEven n d = 2 ^ 53 := by
  have hq := b.quarter_pos
  have hdQ : (0 : ℚ) < d := by exact_mod_cast hd
  have hn : (n : ℚ) / d * d = n := div_mul_cancel₀ _ hdQ.ne'
  have hpow : (2 : ℚ) ^ (b.exponent - 1) = 2 * b.quarter := by
    rw [zpow_sub_one₀ (by norm_num), b.zpow_exponent]
    ring
  have hbelow : b.below = 1 := by rw [below, if_pos hnarrow]
  have hlow := hv.low
  rw [hpow, hm, hbelow] at hlow
  rw [mul_lt_mul_iff_left₀ (by positivity)] at hlt
  push_cast at hlow
  generalize (n : ℚ) / d = x at *
  refine Decimal.roundEven_eq hd ?_ ?_ fun hodd => absurd hodd (by norm_num)
  · have hx : (2 : ℚ) ^ 54 - 1 ≤ 2 * x := by nlinarith
    have : (2 * 2 ^ 53 * d : ℚ) ≤ 2 * n + d := by rw [← hn]; nlinarith
    exact_mod_cast this
  · have : (2 * n : ℚ) ≤ 2 * 2 ^ 53 * d + d := by rw [← hn]; nlinarith
    exact_mod_cast this

theorem IsDouble.bits_lt {b : Binary} (hb : b.IsDouble) : b.bits < 2047 * 2 ^ 52 := by
  have := hb.lt
  have := hb.least
  have := hb.greatest
  have := hb.places
  unfold bits
  omega

/-- A fraction that rounds to a double is rounded to it. -/
theorem IsDouble.nearestBits_eq {b : Binary} {num den : Nat} (hb : b.IsDouble) (hden : 0 < den)
    (hv : b.Rounds (num / den)) : nearestBits num den = b.bits := by
  have hq := b.quarter_pos
  have hbelow : (b.below : ℚ) ≤ 2 := by exact_mod_cast b.below_le
  have hone : (1 : ℚ) ≤ b.mantissa := by exact_mod_cast hb.pos
  have hnum : 0 < num := by
    rw [Nat.pos_iff_ne_zero]
    rintro rfl
    have := hv.low
    rw [Nat.cast_zero, zero_div] at this
    nlinarith
  obtain ⟨n, d, e, hd, hvalue, hscale, hbits⟩ := Decimal.nearestBits_eq hnum hden
  have hlt := hb.bits_lt
  have hplaces := hb.places
  rw [hbits]
  rcases hb.exponent_of_scale hv hscale with rfl | ⟨rfl, hm⟩
  · rw [← hvalue] at hv
    rw [placedBits, hv.roundEven_eq hd]
    unfold bits at hlt ⊢
    split <;> omega
  · have hleast := hscale.least
    have hnarrow := hb.narrow hm (by omega)
    have hlt' := hscale.lt
    rw [← hvalue] at hv hlt'
    rw [placedBits, hv.roundEven_half hd hm hnarrow hlt']
    unfold bits at hlt ⊢
    rw [if_neg (by norm_num)]
    omega

end Binary

/-! ## Reading a double -/

theorem Binary.isDouble_subnormal {fraction : Nat} (hpos : 0 < fraction) (hlt : fraction < 2 ^ 52) :
    IsDouble ⟨fraction, -1074, false⟩ where
  pos := hpos
  lt := hlt.trans (by norm_num)
  least := le_refl _
  greatest := by norm_num
  places := .inr rfl
  narrow _ hne := absurd rfl hne

theorem Binary.isDouble_normal {biased fraction : Nat} (hpos : 0 < biased) (hbiased : biased < 2047)
    (hlt : fraction < 2 ^ 52) :
    IsDouble ⟨2 ^ 52 + fraction, (biased : Int) - 1075, fraction == 0 && biased != 1⟩ := by
  constructor <;> simp only [Bool.and_eq_true, beq_iff_eq, bne_iff_ne] <;> omega

theorem classify_eq_finite {bits : Nat} {negative : Bool} {b : Binary} (hlt : bits < 2 ^ 64)
    (h : classify bits = .finite negative b) :
    b.IsDouble ∧ (if negative then b.bits + 2 ^ 63 else b.bits) = bits := by
  have hbiased : bits / 2 ^ 52 % 2 ^ 11 < 2 ^ 11 := Nat.mod_lt _ (by norm_num)
  have hfraction : bits % 2 ^ 52 < 2 ^ 52 := Nat.mod_lt _ (by norm_num)
  have hparts :
      bits / 2 ^ 63 * 2 ^ 63 + bits / 2 ^ 52 % 2 ^ 11 * 2 ^ 52 + bits % 2 ^ 52 = bits := by
    omega
  -- Without its sign a double has the bits of its two fields.
  have hsign : ∀ magnitude : Nat, magnitude = bits / 2 ^ 52 % 2 ^ 11 * 2 ^ 52 + bits % 2 ^ 52 →
      (if (bits / 2 ^ 63 % 2 == 1) = true then magnitude + 2 ^ 63 else magnitude) = bits := by
    intro magnitude hmagnitude
    simp only [beq_iff_eq]
    split <;> omega
  simp only [classify, Nat.pow_eq] at h
  generalize bits / 2 ^ 52 % 2 ^ 11 = biased at *
  generalize bits % 2 ^ 52 = fraction at *
  by_cases htop : biased = 2047
  · rw [if_pos htop] at h
    split at h <;> cases h
  rw [if_neg htop] at h
  by_cases hzero : biased = 0
  · rw [if_pos hzero] at h
    split at h
    · cases h
    · cases h
      refine ⟨Binary.isDouble_subnormal (by omega) hfraction, hsign _ ?_⟩
      simp [Binary.bits, hzero]
  · rw [if_neg hzero] at h
    cases h
    refine ⟨Binary.isDouble_normal (by omega) (by omega) hfraction, hsign _ ?_⟩
    obtain ⟨k, rfl⟩ := Nat.exists_eq_add_one_of_ne_zero hzero
    have hpred : ((k + 1 : Nat) : Int) - 1075 + 1074 = k := by omega
    rw [Binary.bits, hpred, Int.toNat_natCast]
    ring

theorem classify_eq_zero {bits : Nat} {negative : Bool} (hlt : bits < 2 ^ 64)
    (h : classify bits = .zero negative) : (if negative then 2 ^ 63 else 0) = bits := by
  simp only [classify, Nat.pow_eq] at h
  split at h
  · split at h <;> cases h
  · split at h
    · split at h
      · cases h
        simp only [beq_iff_eq]
        split <;> omega
      · cases h
    · cases h

theorem digits_bounds {n : Nat} (hn : 0 < n) :
    10 ^ ((Nat.toDigits 10 n).length - 1) ≤ n ∧ n < 10 ^ (Nat.toDigits 10 n).length := by
  have hlen : 0 < (Nat.toDigits 10 n).length := Nat.length_toDigits_pos
  refine ⟨?_, (Nat.length_toDigits_le_iff (by norm_num) hlen).1 (le_refl _)⟩
  by_cases hone : (Nat.toDigits 10 n).length = 1
  · rw [hone]
    exact hn
  · by_contra hlt
    have hlen' := (Nat.length_toDigits_le_iff (by norm_num) (by omega)).2 (not_le.1 hlt)
    omega

theorem value_bounds {d : Decimal} (hd : 0 < d.digits) :
    (10 : ℚ) ^ (((Nat.toDigits 10 d.digits).length : Int) + d.exponent - 1) ≤ d.value ∧
      d.value < 10 ^ (((Nat.toDigits 10 d.digits).length : Int) + d.exponent) := by
  obtain ⟨hle, hlt⟩ := digits_bounds hd
  have hlen : 0 < (Nat.toDigits 10 d.digits).length := Nat.length_toDigits_pos
  generalize (Nat.toDigits 10 d.digits).length = len at *
  have h10 : (10 : ℚ) ≠ 0 := by norm_num
  constructor
  · have hsplit : (len : Int) + d.exponent - 1 = (len - 1 : Nat) + d.exponent := by omega
    rw [hsplit, zpow_add₀ h10, zpow_natCast, value]
    gcongr
    exact_mod_cast hle
  · rw [zpow_add₀ h10, zpow_natCast, value]
    gcongr
    exact_mod_cast hlt

namespace Binary

/-- Every number that rounds to a double lies well within the powers of ten that are looked at. -/
theorem IsDouble.range {b : Binary} {v : ℚ} (hb : b.IsDouble) (hv : b.Rounds v) :
    (10 : ℚ) ^ (-400 : Int) ≤ v ∧ v < 10 ^ (400 : Int) := by
  have hq := b.quarter_pos
  have hbelow : (b.below : ℚ) ≤ 2 := by exact_mod_cast b.below_le
  have hone : (1 : ℚ) ≤ b.mantissa := by exact_mod_cast hb.pos
  have hmost : (b.mantissa : ℚ) + 1 ≤ 2 ^ 53 := by exact_mod_cast hb.lt
  have hleast : (2 : ℚ) ^ (-1076 : Int) ≤ b.quarter :=
    zpow_le_zpow_right₀ (by norm_num) (by have := hb.least; omega)
  have hgreatest : b.quarter ≤ (2 : ℚ) ^ (969 : Int) :=
    zpow_le_zpow_right₀ (by norm_num) (by have := hb.greatest; omega)
  have hten : (2 : ℚ) ^ (1200 : Int) ≤ 10 ^ (400 : Int) := by
    have hpow : (2 : ℚ) ^ 1200 = (2 ^ 3) ^ 400 := pow_mul 2 3 400
    calc (2 : ℚ) ^ (1200 : Int) = (2 ^ 3) ^ 400 := hpow
      _ ≤ 10 ^ 400 := by gcongr; norm_num
  constructor
  · calc (10 : ℚ) ^ (-400 : Int) = (10 ^ (400 : Int))⁻¹ := zpow_neg 10 400
      _ ≤ (2 ^ (1200 : Int))⁻¹ := inv_anti₀ (by positivity) hten
      _ = 2 ^ (-1200 : Int) := (zpow_neg 2 1200).symm
      _ ≤ 2 ^ (-1076 : Int) := zpow_le_zpow_right₀ (by norm_num) (by norm_num)
      _ ≤ b.quarter := hleast
      _ ≤ (4 * b.mantissa - b.below) * b.quarter := by nlinarith
      _ ≤ v := hv.low
  · calc v ≤ (4 * b.mantissa + 2) * b.quarter := hv.high
      _ ≤ 2 ^ 55 * b.quarter := by nlinarith
      _ ≤ 2 ^ 55 * 2 ^ (969 : Int) := by gcongr
      _ = 2 ^ (1024 : Int) := (zpow_add₀ (by norm_num) 55 969).symm
      _ < 2 ^ (1200 : Int) := zpow_lt_zpow_right₀ (by norm_num) (by norm_num)
      _ ≤ 10 ^ (400 : Int) := hten

end Binary

/-- A decimal that rounds to a double is read as the double. -/
theorem toFloat_of_rounds {d : Decimal} {b : Binary} (hb : b.IsDouble) (hv : b.Rounds d.value)
    (negative : Bool) :
    toFloat negative d =
      Float.ofBits (UInt64.ofNat (if negative then b.bits + 2 ^ 63 else b.bits)) := by
  obtain ⟨hleast, hgreatest⟩ := hb.range hv
  have hdigits : 0 < d.digits := by
    rw [Nat.pos_iff_ne_zero]
    intro h
    have hzero : d.value = 0 := by simp [value, h]
    have : (0 : ℚ) < 10 ^ (-400 : Int) := by positivity
    linarith
  obtain ⟨hle, hlt⟩ := value_bounds hdigits
  have hten : (1 : ℚ) < 10 := by norm_num
  have htop := (zpow_lt_zpow_iff_right₀ hten).1 (hle.trans_lt hgreatest)
  have hbottom := (zpow_lt_zpow_iff_right₀ hten).1 (hleast.trans_lt hlt)
  obtain ⟨hden, hvalue⟩ := scaled_value d.digits (by norm_num : 0 < 10) one_pos d.exponent
  have hbits : nearestBits (scaled 10 d.digits 1 d.exponent).1 (scaled 10 d.digits 1 d.exponent).2 =
      b.bits := by
    refine hb.nearestBits_eq hden ?_
    rw [hvalue, Nat.cast_one, div_one]
    exact_mod_cast hv
  have hlarge : ¬((Nat.toDigits 10 d.digits).length : Int) + d.exponent > 400 := by omega
  have hsmall : ¬((Nat.toDigits 10 d.digits).length : Int) + d.exponent < -400 := by omega
  simp only [toFloat, if_neg hdigits.ne', if_neg hlarge, if_neg hsmall, hbits, Nat.pow_eq]

/-- A fraction far below the largest double is not rounded to infinity. -/
theorem nearestBits_lt {num den : Nat} (hden : 0 < den) (h : (num : ℚ) / den < 2 ^ 100) :
    nearestBits num den < 2047 * 2 ^ 52 := by
  rcases Nat.eq_zero_or_pos num with rfl | hnum
  · simp [nearestBits]
  obtain ⟨n, d, e, hd, hvalue, hscale, hbits⟩ := nearestBits_eq hnum hden
  have hdQ : (0 : ℚ) < d := by exact_mod_cast hd
  have hpos : (0 : ℚ) < 2 ^ e := by positivity
  have hround : roundEven n d ≤ 2 ^ 53 := by
    refine roundEven_le hd ?_
    have hlt := hscale.lt
    rw [← hvalue, mul_lt_mul_iff_left₀ hpos, div_lt_iff₀ hdQ] at hlt
    exact_mod_cast hlt
  have he : e < 100 := by
    rcases hscale.le with hle | hleast
    · have hlt : (2 : ℚ) ^ e < 2 ^ (100 : Int) := by
        have : (2 : ℚ) ^ (100 : Int) = 2 ^ 100 := rfl
        nlinarith
      exact (zpow_lt_zpow_iff_right₀ (by norm_num)).1 hlt
    · omega
  rw [hbits, placedBits]
  split <;> omega

/-- The double nearest to a whole number that JSON keeps as one is finite. -/
theorem isFinite_ofInt {n : Int} (hn : n.natAbs < 2 ^ 100) : isFinite (ofInt n) = true := by
  have hlen : (Nat.toDigits 10 n.natAbs).length ≤ 31 := by
    rw [Nat.length_toDigits_le_iff (by norm_num) (by norm_num)]
    exact hn.trans (by norm_num)
  have hlarge : ¬((Nat.toDigits 10 n.natAbs).length : Int) + 0 > 400 := by omega
  have hsmall : ¬((Nat.toDigits 10 n.natAbs).length : Int) + 0 < -400 := by omega
  have hbits : nearestBits n.natAbs 1 < 2047 * 2 ^ 52 := by
    refine nearestBits_lt one_pos ?_
    rw [Nat.cast_one, div_one]
    exact_mod_cast hn
  have hscaled : scaled 10 n.natAbs 1 0 = (n.natAbs, 1) := by simp [scaled]
  have hmagnitude : (if n.natAbs = 0 then 0 else nearestBits n.natAbs 1) < 2047 * 2 ^ 52 := by
    split
    · norm_num
    · exact hbits
  simp only [ofInt, toFloat, if_neg hlarge, if_neg hsmall, hscaled, Nat.pow_eq]
  generalize (if n.natAbs = 0 then 0 else nearestBits n.natAbs 1) = magnitude at *
  split
  · exact isFinite_ofBits (by omega) (by omega)
  · exact isFinite_ofBits (by omega) (by omega)

end CoLang.Decimal
