import CoLang.Decimal.Shortest
/-!
# The double nearest to a decimal

A decimal is read as an exact fraction and rounded once, to the nearest double and to the even
mantissa on a tie. A magnitude beyond the largest double reads as infinity.
-/

namespace CoLang.Decimal

/-- The bits of the double nearest to the positive fraction `num / den`. -/
def nearestBits (num den : Nat) : Nat :=
  if num = 0 then 0 else
  -- The exponent for which the quotient has 53 or 54 binary digits, kept within the format.
  let estimate : Int := (num.log2 : Int) - (den.log2 : Int) - 53
  let exponent := max estimate (-1074)
  let (n, d) := scaled 2 num den (-exponent)
  -- With 54 digits one more must go.
  let (n, d, exponent) :=
    if Nat.pow 2 53 ≤ n / d then (n, d * 2, exponent + 1) else (n, d, exponent)
  let quotient := n / d
  let remainder := n % d
  let up := 2 * remainder > d || (2 * remainder = d && quotient % 2 = 1)
  let mantissa := if up then quotient + 1 else quotient
  -- Rounding up to the next power of two carries into the exponent field by itself.
  let bits :=
    if mantissa < Nat.pow 2 52 then mantissa
    else (exponent + 1074).toNat * Nat.pow 2 52 + mantissa
  if bits < 2047 * Nat.pow 2 52 then bits else 2047 * Nat.pow 2 52

/-- The double nearest to `digits * 10 ^ exponent`, with the given sign. Exponents far outside the
range of doubles are settled without computing the power. -/
def toFloat (negative : Bool) (d : Decimal) : Float :=
  let length : Int := (Nat.toDigits 10 d.digits).length
  let bits :=
    if d.digits = 0 then 0
    else if length + d.exponent > 400 then 2047 * Nat.pow 2 52
    else if length + d.exponent < -400 then 0
    else
      let (num, den) := scaled 10 d.digits 1 d.exponent
      nearestBits num den
  Float.ofBits (UInt64.ofNat (if negative then bits + Nat.pow 2 63 else bits))

/-- The double nearest to an integer. -/
def ofInt (n : Int) : Float :=
  toFloat (n < 0) ⟨n.natAbs, 0⟩

/-- The value of a run of decimal digits. -/
def digitsValue (cs : List Char) : Nat :=
  cs.foldl (fun n c => n * 10 + (c.toNat - 48)) 0

/-- Splits a run of digits off the front. -/
def spanDigits (cs : List Char) : List Char × List Char :=
  (cs.takeWhile Char.isDigit, cs.dropWhile Char.isDigit)

/-- The exponent after an `e`: an optional sign and at least one digit, to the end of the text. -/
def exponentPart : List Char → Option Int
  | [] => some 0
  | e :: cs =>
    if e = 'e' ∨ e = 'E' then
      let (negative, cs) :=
        match cs with
        | '-' :: cs => (true, cs)
        | '+' :: cs => (false, cs)
        | cs => (false, cs)
      if cs ≠ [] ∧ cs.all Char.isDigit then
        some (if negative then -(digitsValue cs : Int) else (digitsValue cs : Int))
      else none
    else none

/-- Reads a decimal: an optional sign, digits with an optional point, an optional exponent. Digits
may be missing on one side of the point but not on both. The words `inf`, `infinity` and `nan` are
read in any case. -/
def readFloat (text : String) : Option Float :=
  let (negative, cs) :=
    match text.toList with
    | '-' :: cs => (true, cs)
    | '+' :: cs => (false, cs)
    | cs => (false, cs)
  let word := String.ofList (cs.map Char.toLower)
  if word = "inf" ∨ word = "infinity" then
    some (Float.ofBits (if negative then 0xFFF0000000000000 else 0x7FF0000000000000))
  else if word = "nan" then
    some (Float.ofBits (if negative then 0xFFF8000000000000 else 0x7FF8000000000000))
  else
    let (whole, cs) := spanDigits cs
    let (fraction, cs) :=
      match cs with
      | '.' :: cs => spanDigits cs
      | cs => ([], cs)
    if whole = [] ∧ fraction = [] then none
    else
      (exponentPart cs).map fun e =>
        toFloat negative ⟨digitsValue (whole ++ fraction), e - fraction.length⟩

end CoLang.Decimal
