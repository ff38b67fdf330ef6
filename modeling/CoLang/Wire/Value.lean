import CoLang.Value
import CoLang.Wire.Source
/-!
# Types and values in JSON
-/

namespace CoLang

namespace Ty

/-- The types by name. -/
def names : Assoc Ty :=
  [("int", .int), ("float", .float), ("bool", .bool), ("string", .string)]

/-- A type in JSON. -/
def encode (ty : Ty) : Json := .str ty.name

/-- Reads a type. -/
def decode : Wire.Decoder Ty := Wire.choice names

end Ty

namespace Val

/-- A value in JSON. A float that is not finite becomes `null`, which is not read back. -/
def encode : Val → Json
  | .int n => .obj [("t", .str "Int"), ("v", .int n.toInt)]
  | .float x => .obj [("t", .str "Float"), ("v", .ofFloat x)]
  | .str s => .obj [("t", .str "Str"), ("v", .str s)]
  | .bool b => .obj [("t", .str "Bool"), ("v", .bool b)]

/-- Reads a value. -/
def decode : Wire.Decoder Val :=
  Wire.pairOf [
    ("Int", Wire.carrying fun s j => (Wire.word s j).map .int),
    ("Float", Wire.carrying fun s j => (Wire.double s j).map .float),
    ("Str", Wire.carrying fun s j => (Wire.text s j).map .str),
    ("Bool", Wire.carrying fun s j => (Wire.boolean s j).map .bool)]

/-- A value or `null`. -/
def encode? : Option Val → Json
  | some v => v.encode
  | none => .null

end Val

end CoLang
