import CoLang.Decimal.Nearest
/-!
# Doubles as JSON numbers

A double can be written as a JSON number in more than one way, and a reader may or may not give back
the double that a number was written for. So both ways are left open here. The exact ones write the
shortest decimal and read the nearest double.
-/

namespace CoLang.Json

/-- How a finite double is written as a number, and which double a number is read as. -/
structure Numerals where
  write : Float → String
  read : String → Option Float

namespace Numerals

/-- The shortest decimal of a double, with a point so that it is read back as a double. -/
def shortest (x : Float) : String :=
  let text := Decimal.floatText x
  if text.contains '.' then text else text ++ ".0"

/-- Doubles are written as their shortest decimal, and numbers are read as the nearest double. -/
def exact : Numerals where
  write := shortest
  read := Decimal.readFloat

end Numerals

end CoLang.Json
