/-!
# The shortest decimal of a binary number

A double stands for every real number that rounds to it. Its shortest decimal is the one with the
fewest digits among those reals, the nearest to the double where several are equally short, and the
larger in magnitude where two are equally near. All of it is decided on integers.
-/

namespace CoLang

/-- The decimal number `digits * 10 ^ exponent`. -/
structure Decimal where
  digits : Nat
  exponent : Int
deriving DecidableEq, Repr, Inhabited

namespace Decimal

/-- The magnitude of a finite double: `mantissa * 2 ^ exponent`. `narrowBelow` holds when the next
smaller double is only half as far away as the next larger one. -/
structure Binary where
  mantissa : Nat
  exponent : Int
  narrowBelow : Bool
deriving DecidableEq, Repr, Inhabited

/-- The quotient of two naturals with a power of `base` brought to the side where it is a whole
number. -/
def scaled (base : Nat) (num den : Nat) (exponent : Int) : Nat × Nat :=
  match exponent with
  | .ofNat e => (num * base.pow e, den)
  | .negSucc e => (num, den * base.pow (e + 1))

/-- The number of decimal digits before the point of `num / den` when it is at least one, and
otherwise minus the number of zeros after the point, give or take one. -/
def magnitude (num den : Nat) : Int :=
  if den ≤ num then
    ((Nat.toDigits 10 (num / den)).length : Int)
  else
    1 - ((Nat.toDigits 10 (den / num)).length : Int)

/-- The point of the grid of multiples of `10 ^ k` that stands for the number, if one lies among the
reals that round to it. Of the two neighbours on the grid, the nearer is taken, and the upper one
when they are equally near. -/
def onGrid (b : Binary) (k : Int) : Option Decimal :=
  -- In units of a quarter of the last binary place the number is `4 * mantissa`.
  let (num, den) := scaled 2 1 1 (b.exponent - 2)
  let (num, den) := scaled 10 num den (-k)
  let value := 4 * b.mantissa * num
  let low := (4 * b.mantissa - if b.narrowBelow then 1 else 2) * num
  let high := (4 * b.mantissa + 2) * num
  let holds (d : Nat) : Bool :=
    if b.mantissa % 2 = 0 then low ≤ d * den && d * den ≤ high else low < d * den && d * den < high
  let below := value / den
  let above := below + 1
  match holds below, holds above with
  | true, true =>
    if value - below * den < above * den - value then some ⟨below, k⟩ else some ⟨above, k⟩
  | true, false => some ⟨below, k⟩
  | false, true => some ⟨above, k⟩
  | false, false => none

/-- Tries the grids of `10 ^ k`, `10 ^ (k - 1)` and so on, `count` of them. -/
def firstHit (b : Binary) : Nat → Int → Option Decimal
  | 0, _ => none
  | count + 1, k =>
    match onGrid b k with
    | some d => some d
    | none => firstHit b count (k - 1)

/-- The shortest decimal of a nonzero magnitude. Seventeen digits tell all doubles apart, so the
search always ends with a hit. -/
def shortest (b : Binary) : Decimal :=
  let (num, den) := scaled 2 b.mantissa 1 b.exponent
  (firstHit b 24 (magnitude num den + 1)).getD ⟨0, 0⟩

/-- A decimal written out in full, without an exponent and without a fraction when it is whole. -/
def positional (d : Decimal) : String :=
  match d.exponent with
  | .ofNat e => toString (d.digits * Nat.pow 10 e)
  | .negSucc e =>
    let places := e + 1
    let ds := Nat.toDigits 10 d.digits
    let padded := List.replicate (places + 1 - ds.length) '0' ++ ds
    let whole := padded.take (padded.length - places)
    let fraction := padded.drop (padded.length - places)
    String.ofList (whole ++ '.' :: fraction)

/-- The parts of a double, read off its bits. -/
inductive Class where
  | nan
  | infinite (negative : Bool)
  | zero (negative : Bool)
  | finite (negative : Bool) (magnitude : Binary)
deriving DecidableEq, Repr

/-- What the bits of a double stand for. -/
def classify (bits : Nat) : Class :=
  let negative : Bool := bits / Nat.pow 2 63 % 2 == 1
  let biased : Nat := bits / Nat.pow 2 52 % Nat.pow 2 11
  let fraction : Nat := bits % Nat.pow 2 52
  if biased = 2047 then
    if fraction = 0 then .infinite negative else .nan
  else if biased = 0 then
    if fraction = 0 then .zero negative else .finite negative ⟨fraction, -1074, false⟩
  else
    .finite negative ⟨Nat.pow 2 52 + fraction, (biased : Int) - 1075, fraction == 0 && biased != 1⟩

/-- A double as the language writes it: the shortest decimal, always positional, with a minus sign
also on a negative zero. -/
def floatText (x : Float) : String :=
  let sign (negative : Bool) : String := if negative then "-" else ""
  match classify x.toBits.toNat with
  | .nan => "NaN"
  | .infinite negative => sign negative ++ "inf"
  | .zero negative => sign negative ++ "0"
  | .finite negative b => sign negative ++ (shortest b).positional

/-- Whether a double is neither infinite nor NaN. -/
def isFinite (x : Float) : Bool :=
  match classify x.toBits.toNat with
  | .nan | .infinite _ => false
  | .zero _ | .finite .. => true

end Decimal

end CoLang
