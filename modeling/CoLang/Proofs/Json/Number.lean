import CoLang.Proofs.Decimal.Shortest
import CoLang.Proofs.Json.Bounds
/-!
# Numbers are read back from their text

A whole number is written as its digits and read back (`readNumber_int`). Whether a double is read
back depends on how doubles are written and read (`Numerals.readsBack`). The exact numerals read all
finite doubles back (`Numerals.readsBack_exact`), because what is read has the value of the shortest
decimal.
-/

namespace CoLang

/-! ## Digits -/

namespace Decimal

theorem digitsValue_eq (cs : List Char) : digitsValue cs = Nat.ofDigitChars 10 cs 0 := by
  rw [digitsValue, Nat.ofDigitChars_eq_foldl]
  congr 1
  funext n c
  rw [mul_comm]
  rfl

@[simp] theorem digitsValue_toDigits (n : Nat) : digitsValue (Nat.toDigits 10 n) = n := by
  rw [digitsValue_eq, Nat.ofDigitChars_ten_toDigits]

theorem isDigit_of_mem {n : Nat} {c : Char} (h : c ∈ Nat.toDigits 10 n) : c.isDigit = true :=
  Nat.isDigit_of_mem_toDigits (by norm_num) (by norm_num) h

theorem head_toDigits_ne {n : Nat} (hn : 0 < n) : (Nat.toDigits 10 n).head? ≠ some '0' := by
  induction n using Nat.strongRecOn with
  | ind n ih =>
    by_cases hlt : n < 10
    · rw [Nat.toDigits_of_lt_base hlt]
      interval_cases n <;> decide
    · rw [Nat.toDigits_of_base_le (by norm_num) (by omega), List.head?_append_of_ne_nil _
        Nat.toDigits_ne_nil]
      exact ih (n / 10) (by omega) (by omega)

theorem spanDigits_append {ds : List Char} (rest : List Char) (hds : ∀ c ∈ ds, c.isDigit = true)
    (hrest : ∀ c ∈ rest.head?, c.isDigit = false) : spanDigits (ds ++ rest) = (ds, rest) := by
  rw [spanDigits, List.takeWhile_append_of_pos hds, List.dropWhile_append_of_pos hds]
  cases rest with
  | nil => simp
  | cons c cs =>
    have hc := hrest c rfl
    simp [hc]

theorem of_spanDigits {cs ds rest : List Char} (h : spanDigits cs = (ds, rest)) :
    cs = ds ++ rest ∧ ∀ c ∈ ds, c.isDigit = true := by
  cases h
  exact ⟨List.takeWhile_append_dropWhile.symm, List.all_eq_true.1 List.all_takeWhile⟩

end Decimal

namespace Json

/-- The sign of a number. -/
def signChars (negative : Bool) : List Char := if negative then ['-'] else []

/-- Digits as they stand in front of a point: at least one, and no zero in front of others. -/
structure IsWhole (ds : List Char) : Prop where
  ne_nil : ds ≠ []
  digits : ∀ c ∈ ds, c.isDigit = true
  leading : ds.head? = some '0' → ds.length = 1

theorem isWhole_toDigits (n : Nat) : IsWhole (Nat.toDigits 10 n) where
  ne_nil := Nat.toDigits_ne_nil
  digits _ h := Decimal.isDigit_of_mem h
  leading h := by
    cases n with
    | zero => rfl
    | succ n => exact absurd h (Decimal.head_toDigits_ne (by omega))

theorem IsWhole.accepted {whole : List Char} (hw : IsWhole whole) :
    ¬(whole = [] ∨ whole.head? = some '0' ∧ 1 < whole.length) := by
  rintro (h | ⟨h, hlt⟩)
  · exact hw.ne_nil h
  · rw [hw.leading h] at hlt
    omega

theorem IsWhole.head_ne {whole : List Char} (hw : IsWhole whole) (rest : List Char) :
    ∃ c cs, whole ++ rest = c :: cs ∧ c ≠ '-' := by
  obtain ⟨c, cs, rfl⟩ := List.exists_cons_of_ne_nil hw.ne_nil
  refine ⟨c, cs ++ rest, rfl, ?_⟩
  rintro rfl
  exact absurd (hw.digits '-' List.mem_cons_self) (by decide)

variable {num : Numerals}

theorem readNumber_whole {whole : List Char} (negative : Bool) (hw : IsWhole whole) :
    readNumber num (signChars negative ++ whole) =
      some (((wholeNumber? negative whole).map .int).getD
        (num.double (signChars negative ++ whole))) := by
  have hspan := Decimal.spanDigits_append [] hw.digits (by simp)
  rw [List.append_nil] at hspan
  cases negative with
  | true =>
    simp only [signChars, if_true, List.singleton_append, readNumber, hspan, if_neg hw.accepted]
  | false =>
    obtain ⟨c, cs, hcs, hminus⟩ := hw.head_ne []
    rw [List.append_nil] at hcs
    subst hcs
    have hleading : c = '0' → cs = [] := by simpa using hw.leading
    simpa [signChars, readNumber, hminus, hspan] using hleading

theorem readNumber_point {whole fraction : List Char} (negative : Bool) (hw : IsWhole whole)
    (hne : fraction ≠ []) (hf : ∀ c ∈ fraction, c.isDigit = true) :
    readNumber num (signChars negative ++ (whole ++ '.' :: fraction)) =
      some (num.double (signChars negative ++ (whole ++ '.' :: fraction))) := by
  have hspan := Decimal.spanDigits_append ('.' :: fraction) hw.digits (by simp)
  have hspan' := Decimal.spanDigits_append [] hf (by simp)
  rw [List.append_nil] at hspan'
  cases negative with
  | true =>
    simp only [signChars, if_true, List.singleton_append, readNumber, hspan, if_neg hw.accepted,
      hspan', if_neg hne, Decimal.exponentPart, Option.map_some]
  | false =>
    obtain ⟨c, cs, hcs, hminus⟩ := hw.head_ne ('.' :: fraction)
    have haccepted := hw.accepted
    simp only [signChars, Bool.false_eq_true, if_false, List.nil_append]
    rw [hcs] at hspan ⊢
    simp [readNumber, hminus, hspan, haccepted, hspan', hne, Decimal.exponentPart]

/-! ## Whole numbers -/

theorem toList_toString_int (n : Int) :
    (toString n).toList = signChars (n < 0) ++ Nat.toDigits 10 n.natAbs := by
  cases n with
  | ofNat n =>
    show (Nat.repr n).toList = _
    simp [signChars]
  | negSucc n =>
    show ("-" ++ Nat.repr (n + 1)).toList = _
    simp [signChars]

/-- A whole number that is kept as one is read back. -/
theorem readNumber_int {n : Int} (hmin : intMin ≤ n) (hmax : n ≤ intMax) :
    readNumber num (toString n).toList = some (.int n) := by
  have hn : (if n < 0 then -(n.natAbs : Int) else n.natAbs) = n := by
    split <;> omega
  have hzero : ¬(n = 0 ∧ n < 0) := by omega
  have hwhole : wholeNumber? (n < 0) (Nat.toDigits 10 n.natAbs) = some n := by
    simp only [wholeNumber?, Decimal.digitsValue_toDigits, decide_eq_true_eq]
    rw [hn, if_neg hzero, if_pos ⟨hmin, hmax⟩]
  rw [toList_toString_int, readNumber_whole _ (isWhole_toDigits _), hwhole]
  rfl

/-! ## Doubles -/

theorem digitsValue_append (ds ds' : List Char) :
    Decimal.digitsValue (ds ++ ds') =
      Decimal.digitsValue ds * 10 ^ ds'.length + Decimal.digitsValue ds' := by
  rw [Decimal.digitsValue_eq, Decimal.digitsValue_eq, Decimal.digitsValue_eq,
    Nat.ofDigitChars_append, Nat.ofDigitChars_eq_ofDigitChars_zero, mul_comm]

/-- A text with a point behind it where it has none. -/
def withPoint (cs : List Char) : List Char :=
  if '.' ∈ cs then cs else cs ++ ['.', '0']

theorem toList_shortest (x : Float) :
    (Numerals.shortest x).toList = withPoint (Decimal.floatText x).toList := by
  simp only [Numerals.shortest, String.contains_char_eq, decide_eq_true_eq, withPoint]
  split <;> simp

theorem withPoint_sign (negative : Bool) (cs : List Char) :
    withPoint (signChars negative ++ cs) = signChars negative ++ withPoint cs := by
  have hsign : '.' ∉ signChars negative := by cases negative <;> decide
  by_cases h : '.' ∈ cs <;> simp [withPoint, hsign, h]

theorem withPoint_toDigits (n : Nat) :
    withPoint (Nat.toDigits 10 n) = Nat.toDigits 10 n ++ ['.', '0'] := by
  refine if_neg fun h => ?_
  exact absurd (Decimal.isDigit_of_mem h) (by decide)

/-- The digits of a number, with zeros in front so that more than `places` of them are there. -/
def padded (digits places : Nat) : List Char :=
  List.replicate (places + 1 - (Nat.toDigits 10 digits).length) '0' ++ Nat.toDigits 10 digits

theorem lt_length_padded (digits places : Nat) : places < (padded digits places).length := by
  rw [padded, List.length_append, List.length_replicate]
  omega

theorem isDigit_of_mem_padded {digits places : Nat} {c : Char} (h : c ∈ padded digits places) :
    c.isDigit = true := by
  rcases List.mem_append.1 h with h | h
  · obtain ⟨-, rfl⟩ := List.mem_replicate.1 h
    decide
  · exact Decimal.isDigit_of_mem h

theorem digitsValue_padded (digits places : Nat) :
    Decimal.digitsValue (padded digits places) = digits := by
  rw [padded, digitsValue_append, Decimal.digitsValue_toDigits, Decimal.digitsValue_eq,
    Nat.ofDigitChars_replicate_zero, mul_zero, zero_mul, zero_add]

/-- Zeros are put in front only until one digit stands before the point. -/
theorem isWhole_take_padded (digits : Nat) {places : Nat} (hplaces : 0 < places) :
    IsWhole ((padded digits places).take ((padded digits places).length - places)) where
  ne_nil := by
    have hlt := lt_length_padded digits places
    rw [Ne, List.take_eq_nil_iff]
    rintro (h | h)
    · omega
    · rw [h] at hlt
      cases hlt
  digits _ h := isDigit_of_mem_padded (List.mem_of_mem_take h)
  leading h := by
    have hlen : 0 < (Nat.toDigits 10 digits).length := Nat.length_toDigits_pos
    by_cases hshort : (Nat.toDigits 10 digits).length ≤ places
    · simp only [padded, List.length_take, List.length_append, List.length_replicate]
      omega
    · have hnone : padded digits places = Nat.toDigits 10 digits := by
        have hzero : places + 1 - (Nat.toDigits 10 digits).length = 0 := by omega
        rw [padded, hzero, List.replicate_zero, List.nil_append]
      rw [hnone, List.head?_take, if_neg (by omega)] at h
      have hpos : 0 < digits := by
        rw [Nat.pos_iff_ne_zero]
        rintro rfl
        exact hshort hplaces
      exact absurd h (Decimal.head_toDigits_ne hpos)

theorem exists_withPoint_positional (d : Decimal) :
    ∃ whole fraction, IsWhole whole ∧ fraction ≠ [] ∧ (∀ c ∈ fraction, c.isDigit = true) ∧
      withPoint d.positional.toList = whole ++ '.' :: fraction ∧
      (⟨Decimal.digitsValue (whole ++ fraction), -fraction.length⟩ : Decimal).value = d.value := by
  obtain ⟨digits, exponent⟩ := d
  cases exponent with
  | ofNat e =>
    refine ⟨Nat.toDigits 10 (digits * 10 ^ e), ['0'], isWhole_toDigits _, by simp, by simp, ?_, ?_⟩
    · have htext : (Decimal.positional ⟨digits, .ofNat e⟩).toList =
          Nat.toDigits 10 (digits * 10 ^ e) := Nat.toList_repr
      rw [htext, withPoint_toDigits]
    · rw [digitsValue_append, Decimal.digitsValue_toDigits]
      simp [Decimal.value, Decimal.digitsValue]
  | negSucc e =>
    have hlt := lt_length_padded digits (e + 1)
    have hfraction : ((padded digits (e + 1)).drop
        ((padded digits (e + 1)).length - (e + 1))).length = e + 1 := by
      rw [List.length_drop]
      omega
    refine ⟨_, _, isWhole_take_padded digits (Nat.succ_pos e),
      List.ne_nil_of_length_pos (by rw [hfraction]; omega),
      fun c h => isDigit_of_mem_padded (List.mem_of_mem_drop h), ?_, ?_⟩
    · have htext : (Decimal.positional ⟨digits, .negSucc e⟩).toList =
          (padded digits (e + 1)).take ((padded digits (e + 1)).length - (e + 1)) ++
            '.' :: (padded digits (e + 1)).drop ((padded digits (e + 1)).length - (e + 1)) :=
        String.toList_ofList
      rw [htext, withPoint, if_pos (by simp)]
    · rw [List.take_append_drop, digitsValue_padded, hfraction]
      rfl

/-- The sign and the digits of a finite double, with its point. -/
theorem exists_toList_shortest {x : Float} (h : Decimal.isFinite x = true) :
    ∃ negative whole fraction, IsWhole whole ∧ fraction ≠ [] ∧
      (∀ c ∈ fraction, c.isDigit = true) ∧
      (Numerals.shortest x).toList = signChars negative ++ (whole ++ '.' :: fraction) ∧
      Decimal.toFloat negative ⟨Decimal.digitsValue (whole ++ fraction), -fraction.length⟩ = x := by
  have hlt : x.toBits.toNat < 2 ^ 64 := x.toBits.toNat_lt
  have hback : ∀ bits, bits = x.toBits.toNat → Float.ofBits (UInt64.ofNat bits) = x := by
    rintro bits rfl
    rw [UInt64.ofNat_toNat, Float.ofBits_toBits]
  have hsign : ∀ negative : Bool, (if negative then "-" else "").toList = signChars negative := by
    decide
  rw [toList_shortest]
  cases hclass : Decimal.classify x.toBits.toNat with
  | nan => simp [Decimal.isFinite, hclass] at h
  | infinite negative => simp [Decimal.isFinite, hclass] at h
  | zero negative =>
    refine ⟨negative, ['0'], ['0'], isWhole_toDigits 0, by simp, by simp, ?_, ?_⟩
    · simp only [Decimal.floatText, hclass, String.toList_append, hsign]
      rw [withPoint_sign]
      rfl
    · refine hback _ ?_
      rw [← Decimal.classify_eq_zero hlt hclass]
      cases negative <;> rfl
  | finite negative b =>
    obtain ⟨hb, hbits⟩ := Decimal.classify_eq_finite hlt hclass
    obtain ⟨whole, fraction, hw, hne, hf, htext, hvalue⟩ :=
      exists_withPoint_positional (Decimal.shortest b)
    refine ⟨negative, whole, fraction, hw, hne, hf, ?_, ?_⟩
    · simp only [Decimal.floatText, hclass, String.toList_append, hsign]
      rw [withPoint_sign, htext]
    · have hrounds := Decimal.rounds_shortest hb
      rw [← hvalue] at hrounds
      rw [Decimal.toFloat_of_rounds hb hrounds]
      exact hback _ hbits

theorem toLower_of_isDigit {c : Char} (h : c.isDigit = true) : c.toLower = c := by
  have hupper : ¬(65 ≤ c.val ∧ c.val ≤ 90) := by
    simp only [Char.isDigit, Bool.and_eq_true, decide_eq_true_eq, UInt32.le_iff_toNat_le] at h ⊢
    exact fun hc => absurd (Nat.le_trans hc.1 h.2) (by decide)
  simp only [Char.toLower]
  split
  · next hc => exact absurd hc hupper
  · rfl

/-- What begins with a digit is not one of the words for a double. -/
theorem map_toLower_ne {c d : Char} {cs ds : List Char} (hc : c.isDigit = true)
    (hd : d.isDigit = false) :
    String.ofList ((c :: cs).map Char.toLower) ≠ String.ofList (d :: ds) := by
  intro h
  have hhead := congrArg List.head? (String.ofList_inj.1 h)
  simp only [List.map_cons, List.head?_cons, Option.some.injEq, toLower_of_isDigit hc] at hhead
  rw [hhead, hd] at hc
  cases hc

theorem readFloat_point {whole fraction : List Char} (negative : Bool) (hw : IsWhole whole)
    (hf : ∀ c ∈ fraction, c.isDigit = true) :
    Decimal.readFloat (String.ofList (signChars negative ++ (whole ++ '.' :: fraction))) =
      some (Decimal.toFloat negative
        ⟨Decimal.digitsValue (whole ++ fraction), -fraction.length⟩) := by
  have hspan := Decimal.spanDigits_append ('.' :: fraction) hw.digits (by simp)
  have hspan' := Decimal.spanDigits_append [] hf (by simp)
  rw [List.append_nil] at hspan'
  obtain ⟨c, cs, rfl⟩ := List.exists_cons_of_ne_nil hw.ne_nil
  have hdigit : c.isDigit = true := hw.digits c List.mem_cons_self
  have hsign : c ≠ '-' ∧ c ≠ '+' := by
    constructor <;> rintro rfl <;> cases hdigit
  rw [List.cons_append] at hspan ⊢
  have hword : ∀ d ds, d.isDigit = false →
      String.ofList ((c :: (cs ++ '.' :: fraction)).map Char.toLower) ≠ String.ofList (d :: ds) :=
    fun d ds hd => map_toLower_ne hdigit hd
  have hinf : _ ≠ "inf" := hword 'i' ['n', 'f'] rfl
  have hinfinity : _ ≠ "infinity" := hword 'i' ['n', 'f', 'i', 'n', 'i', 't', 'y'] rfl
  have hnan : _ ≠ "nan" := hword 'n' ['a', 'n'] rfl
  cases negative <;>
    simp [signChars, Decimal.readFloat, hsign, hinf, hinfinity, hnan, hspan, hspan',
      Decimal.exponentPart, -String.ofList_cons, -List.map_cons]

namespace Numerals

/-- The number that a double is written as is read as that double. -/
def readsBack (num : Numerals) (x : Float) : Bool :=
  match readNumber num (num.write x).toList with
  | some (.float y) => y.toBits == x.toBits
  | _ => false

theorem readNumber_of_readsBack {x : Float} (h : num.readsBack x = true) :
    readNumber num (num.write x).toList = some (.float x) := by
  unfold readsBack at h
  split at h
  · next y hy =>
    have hbits : y.toBits = x.toBits := by simpa using h
    rw [hy, ← Float.ofBits_toBits y, hbits, Float.ofBits_toBits]
  · cases h

theorem isFinite_of_readsBack {x : Float} (h : num.readsBack x = true) :
    Decimal.isFinite x = true := by
  have hbounded : (Json.float x).isBounded 0 = true :=
    isBounded_of_readNumber (readNumber_of_readsBack h)
  rwa [isBounded] at hbounded

/-- Shortest decimals are read back as the nearest doubles. -/
theorem readsBack_exact {x : Float} (h : Decimal.isFinite x = true) : exact.readsBack x = true := by
  obtain ⟨negative, whole, fraction, hw, hne, hf, htext, hx⟩ := exists_toList_shortest h
  have hread : readNumber exact (exact.write x).toList = some (.float x) := by
    show readNumber exact (shortest x).toList = _
    rw [htext, readNumber_point negative hw hne hf]
    simp only [double, exact, readFloat_point negative hw hf, hx, if_pos h]
  simp [readsBack, hread]

end Numerals

end Json

end CoLang
