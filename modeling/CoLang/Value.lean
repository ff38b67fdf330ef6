import CoLang.Decimal.Shortest
/-!
# Types and values

The language has four types and one kind of value for each. Integers are signed words of 64 bits,
floats are IEEE doubles.
-/

namespace CoLang

/-- The type of a variable, a parameter or a result. -/
inductive Ty where
  | int
  | float
  | bool
  | string
deriving DecidableEq, Repr, Inhabited

/-- A type as programs and messages spell it. -/
def Ty.name : Ty → String
  | .int => "int"
  | .float => "float"
  | .bool => "bool"
  | .string => "string"

/-- A value of the language. -/
inductive Val where
  | int (n : Int64)
  | float (x : Float)
  | str (s : String)
  | bool (b : Bool)
deriving Inhabited

namespace Val

/-- The type of a value. -/
def ty : Val → Ty
  | .int _ => .int
  | .float _ => .float
  | .str _ => .string
  | .bool _ => .bool

/-- A value as `print` writes it. -/
def text : Val → String
  | .int n => toString n.toInt
  | .float x => Decimal.floatText x
  | .str s => s
  | .bool true => "true"
  | .bool false => "false"

end Val

end CoLang
