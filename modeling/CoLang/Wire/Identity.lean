import CoLang.Identity
import CoLang.Json.Printer
import CoLang.Json.Token
/-!
# Identities as hexadecimal digits

The usual format of identities: 32 hexadecimal digits in groups of 8, 4, 4, 4 and 12 with hyphens
between them. Read are also digits without hyphens, and groups in braces or behind `urn:uuid:`.
-/

namespace CoLang.Identity

open Json (hexDigit hexValue?)

/-! ## Digits -/

/-- The last `count` hexadecimal digits of a number. -/
def hexDigits : Nat → Nat → List Char
  | 0, _ => []
  | count + 1, n => hexDigits count (n / 16) ++ [hexDigit (n % 16)]

/-- The number that hexadecimal digits stand for. -/
def hexNumber? (cs : List Char) : Option Nat :=
  cs.foldlM (fun n c => (hexValue? c).map (n * 16 + ·)) 0

theorem hexValue?_hexDigit {n : Nat} (h : n < 16) : hexValue? (hexDigit n) = some n := by
  have hall : ∀ d : Fin 16, hexValue? (hexDigit d) = some d.val := by decide
  exact hall ⟨n, h⟩

@[simp] theorem length_hexDigits (count n : Nat) : (hexDigits count n).length = count := by
  induction count generalizing n with
  | zero => rfl
  | succ count ih => simp [hexDigits, ih]

theorem hexNumber?_hexDigits (count n : Nat) :
    hexNumber? (hexDigits count n) = some (n % Nat.pow 16 count) := by
  induction count generalizing n with
  | zero => simp [hexDigits, hexNumber?, Nat.mod_one]
  | succ count ih =>
    have hlast := hexValue?_hexDigit (Nat.mod_lt n (by decide : 0 < 16))
    simp only [hexNumber?] at ih
    simp only [hexDigits, hexNumber?, List.foldlM_append, ih, List.foldlM_cons, List.foldlM_nil,
      hlast, Option.map_some, Option.bind_eq_bind, Option.bind_some, Option.pure_def,
      Option.some.injEq]
    show n / 16 % 16 ^ count * 16 + n % 16 = n % 16 ^ (count + 1)
    rw [Nat.pow_succ', Nat.mod_mul, Nat.add_comm, Nat.mul_comm]

/-! ## Groups -/

/-- The characters in groups of the given lengths, with hyphens between them. -/
def group : List Nat → List Char → List Char
  | [], _ => []
  | [n], cs => cs.take n
  | n :: more, cs => cs.take n ++ '-' :: group more (cs.drop n)

/-- The characters that stand in groups of the given lengths. -/
def ungroup? : List Nat → List Char → Option (List Char)
  | [], cs => if cs = [] then some [] else none
  | [n], cs => if cs.length = n then some cs else none
  | n :: more, cs =>
    match cs.drop n with
    | '-' :: rest => (ungroup? more rest).map (cs.take n ++ ·)
    | _ => none

/-- How many characters stand in groups. -/
def grouped : List Nat → Nat
  | [] => 0
  | n :: more => n + grouped more

theorem ungroup?_group {lengths : List Nat} {cs : List Char} (h : cs.length = grouped lengths) :
    ungroup? lengths (group lengths cs) = some cs := by
  fun_induction group lengths cs with
  | case1 cs => simpa [ungroup?, grouped, eq_comm] using h
  | case2 n cs =>
    have hlength : cs.length = n := h
    simp [ungroup?, hlength, List.take_of_length_le]
  | case3 n more cs hmore ih =>
    have hlong : n ≤ cs.length := by
      rw [h]
      exact Nat.le_add_right n (grouped more)
    have hrest : (cs.drop n).length = grouped more := by
      rw [List.length_drop, h]
      exact Nat.add_sub_cancel_left n (grouped more)
    have hdrop : (cs.take n ++ '-' :: group more (cs.drop n)).drop n =
        '-' :: group more (cs.drop n) :=
      List.drop_left' (List.length_take_of_le hlong)
    have htake : (cs.take n ++ '-' :: group more (cs.drop n)).take n = cs.take n :=
      List.take_left' (List.length_take_of_le hlong)
    rw [ungroup?]
    · simp only [hdrop, htake, ih hrest, Option.map_some, List.take_append_drop]
    · exact hmore

/-! ## The format -/

/-- The lengths of the groups of an identity. -/
def groupLengths : List Nat := [8, 4, 4, 4, 12]

/-- The digits of a text that is an identity. -/
def digits? (cs : List Char) : Option (List Char) :=
  match ungroup? groupLengths cs with
  | some digits => some digits
  | none =>
    if cs.length = 32 then some cs
    else if cs.head? = some '\x7b' ∧ cs.getLast? = some '\x7d' then
      ungroup? groupLengths (cs.drop 1).dropLast
    else if (cs.take 9).map Char.toLower = "urn:uuid:".toList then
      ungroup? groupLengths (cs.drop 9)
    else none

/-- Hexadecimal digits in groups. -/
def Format.hyphenated : Format where
  write id := String.ofList (group groupLengths (hexDigits 32 id.bits.toNat))
  read text := ((digits? text.toList).bind hexNumber?).map fun n => ⟨.ofNat 128 n⟩
  read_write id := by
    have hlength : (hexDigits 32 id.bits.toNat).length = grouped groupLengths :=
      length_hexDigits 32 id.bits.toNat
    simp only [String.toList_ofList, digits?, ungroup?_group hlength, Option.bind_some,
      hexNumber?_hexDigits, Option.map_some, Option.some.injEq]
    rw [Nat.mod_eq_of_lt (show id.bits.toNat < Nat.pow 16 32 from id.bits.isLt), BitVec.ofNat_toNat,
      BitVec.setWidth_eq]

end CoLang.Identity
