import CoLang.Assoc
import CoLang.Decimal.Nearest
import CoLang.Value
/-!
# Configuration items

A configuration is a tree of tables whose leaves are loosely typed: a number may be given as a text,
a truth value as a number, and so on. Sources are laid over one another, table by table. Names are
the same in capitals and in small letters, and are kept in small ones.
-/

namespace CoLang.Config

/-- A configuration value. -/
inductive Item where
  /-- The place of an item of a list that was never given. -/
  | nothing
  | bool (b : Bool)
  | int (n : Int64)
  | float (x : Float)
  | str (s : String)
  | list (items : List Item)
  | table (entries : List (String × Item))
deriving Inhabited

namespace Item

/-- The entries of a table. Anything else has none. -/
def entries : Item → Assoc Item
  | .table entries => entries
  | _ => []

/-- The items of a list. Anything else has none. -/
def items : Item → List Item
  | .list items => items
  | _ => []

/-- A text in lower case. -/
def lower (s : String) : String := s.map Char.toLower

mutual

/-- Lays an item over another. A table adds its entries to what is there, and takes its place if
that was no table. Everything else replaces what is there. -/
def overlay (old : Item) : Item → Item
  | .table entries => overlayEntries old entries
  | item => item

/-- Lays entries over an item. -/
def overlayEntries (old : Item) : Assoc Item → Item
  | [] => old
  | (name, item) :: rest =>
    let name := lower name
    let below := (old.entries.get? name).getD (.table [])
    overlayEntries (.table (old.entries.set name (overlay below item))) rest

end

/-! ## Reading scalars -/

/-- The words that mean yes. -/
def yesWords : List String := ["true", "on", "yes"]

/-- The words that mean no. -/
def noWords : List String := ["false", "off", "no"]

/-- A text of digits as a number of 64 bits. A plus sign may stand in front. -/
def count? (s : String) : Option Nat :=
  let cs := match s.toList with
    | '+' :: cs => cs
    | cs => cs
  if cs ≠ [] ∧ cs.all Char.isDigit ∧ Decimal.digitsValue cs < UInt64.size then
    some (Decimal.digitsValue cs)
  else none

/-- A text of digits as a signed word. A sign may stand in front. -/
def word? (s : String) : Option Int64 :=
  let (negative, cs) := match s.toList with
    | '-' :: cs => (true, cs)
    | '+' :: cs => (false, cs)
    | cs => (false, cs)
  let n : Int := Decimal.digitsValue cs
  let n := if negative then -n else n
  if cs ≠ [] ∧ cs.all Char.isDigit ∧ Int64.minValue.toInt ≤ n ∧ n ≤ Int64.maxValue.toInt then
    some (Int64.ofInt n)
  else none

/-- The nearest natural number of 64 bits, away from zero on a tie. What is negative or no number
becomes zero. -/
def roundedCount (x : Float) : Nat :=
  match Decimal.classify x.toBits.toNat with
  | .finite false b =>
    let (num, den) := Decimal.scaled 2 b.mantissa 1 b.exponent
    min ((2 * num + den) / (2 * den)) (UInt64.size - 1)
  | .infinite false => UInt64.size - 1
  | _ => 0

/-- Reads a natural number. -/
def toCount? : Item → Option Nat
  | .bool b => some (if b then 1 else 0)
  | .int n => if 0 ≤ n.toInt then some n.toInt.toNat else none
  | .float x => some (roundedCount x)
  | .str s =>
    if yesWords.contains (lower s) then some 1
    else if noWords.contains (lower s) then some 0
    else count? s
  | .nothing | .list _ | .table _ => none

/-- Reads a truth value. -/
def toBool? : Item → Option Bool
  | .bool b => some b
  | .int n => some (n != 0)
  | .float x => some (!(x == 0))
  | .str s =>
    if ("1" :: yesWords).contains (lower s) then some true
    else if ("0" :: noWords).contains (lower s) then some false
    else none
  | .nothing | .list _ | .table _ => none

/-- Reads a text. -/
def toText? : Item → Option String
  | .str s => some s
  | .bool b => some (Val.bool b).text
  | .int n => some (Val.int n).text
  | .float x => some (Val.float x).text
  | .nothing | .list _ | .table _ => none

end Item

end CoLang.Config
