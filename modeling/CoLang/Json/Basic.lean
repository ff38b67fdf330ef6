import CoLang.Assoc
import CoLang.Decimal.Shortest
/-!
# JSON values

A JSON value as it was written: the members of an object stand in order, and one name may occur more
than once. Whole numbers that fit a word are kept apart from all other numbers. What is written
correctly but denotes nothing, such as a number too large for a double, is `unreadable`: it may
stand where nobody looks at it.
-/

namespace CoLang

/-- A JSON value. -/
inductive Json where
  | null
  | bool (b : Bool)
  /-- A whole number between `-2 ^ 63` and `2 ^ 64 - 1`, written without point and exponent. -/
  | int (n : Int)
  /-- Any other number. -/
  | float (x : Float)
  | str (s : String)
  | arr (items : List Json)
  | obj (members : List (String × Json))
  | unreadable
deriving Inhabited

namespace Json

/-- The least and the largest whole number that is kept as one. -/
def intMin : Int := Int64.minValue.toInt

@[inherit_doc intMin]
def intMax : Int := UInt64.size - 1

/-- A finite double as a JSON number. JSON has no others, so they become `null`. -/
def ofFloat (x : Float) : Json :=
  if Decimal.isFinite x then .float x else .null

/-- A text or `null`. -/
def ofText? : Option String → Json
  | some s => .str s
  | none => .null

/-- The first member of a name. -/
def field? (name : String) : Json → Option Json
  | .obj members => Assoc.get? members name
  | _ => none

mutual

/-- The number of lists and objects on the deepest way into a value. -/
def height : Json → Nat
  | .arr items => itemsHeight items + 1
  | .obj members => membersHeight members + 1
  | _ => 0

/-- The height of the highest item of a list. -/
def itemsHeight : List Json → Nat
  | [] => 0
  | j :: rest => max (height j) (itemsHeight rest)

/-- The height of the highest member of an object. -/
def membersHeight : List (String × Json) → Nat
  | [] => 0
  | (_, j) :: rest => max (height j) (membersHeight rest)

end

mutual

/-- Whether nothing in a value is unreadable. -/
def readable : Json → Bool
  | .unreadable => false
  | .arr items => itemsReadable items
  | .obj members => membersReadable members
  | _ => true

/-- Whether nothing in a list is unreadable. -/
def itemsReadable : List Json → Bool
  | [] => true
  | j :: rest => readable j && itemsReadable rest

/-- Whether nothing in an object is unreadable. -/
def membersReadable : List (String × Json) → Bool
  | [] => true
  | (_, j) :: rest => readable j && membersReadable rest

end

/-- Whether a value can be taken in as a whole where `room` levels of nesting are left. -/
def fits (room : Nat) (j : Json) : Bool :=
  j.readable && j.height ≤ room

end Json

end CoLang
