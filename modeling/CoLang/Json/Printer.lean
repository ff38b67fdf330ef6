import CoLang.Json.Basic
import CoLang.Json.Numerals
/-!
# Writing JSON

Values are written on one line without blanks, or over several lines with an indent of two. Texts
keep all characters that need no escape; which others are escaped besides quotes, backslashes and
control characters is left to the caller, and so is how doubles are written.
-/

namespace CoLang.Json

/-- The hexadecimal digit of a value below sixteen. -/
def hexDigit (n : Nat) : Char :=
  if n < 10 then Char.ofNat (48 + n) else Char.ofNat (87 + n)

/-- A four-digit escape. -/
def unitEscape (n : Nat) : String :=
  String.ofList ['\\', 'u', hexDigit (n / 4096 % 16), hexDigit (n / 256 % 16),
    hexDigit (n / 16 % 16), hexDigit (n % 16)]

/-- A character inside a text. -/
def escapeChar (extra : Char → Bool) (c : Char) : String :=
  if c = '"' then "\\\""
  else if c = '\\' then "\\\\"
  else if c = '\n' then "\\n"
  else if c = '\r' then "\\r"
  else if c = '\t' then "\\t"
  else if c.toNat = 8 then "\\b"
  else if c.toNat = 12 then "\\f"
  else if c.toNat < 0x20 || extra c then unitEscape c.toNat
  else String.singleton c

/-- A text between quotes. -/
def quote (extra : Char → Bool) (s : String) : String :=
  s.foldl (fun out c => out ++ escapeChar extra c) "\"" ++ "\""

mutual

/-- Appends a value on one line. -/
def writeCompact (num : Numerals) (extra : Char → Bool) (out : String) : Json → String
  | .null | .unreadable => out ++ "null"
  | .bool true => out ++ "true"
  | .bool false => out ++ "false"
  | .int n => out ++ toString n
  | .float x => out ++ (if Decimal.isFinite x then num.write x else "null")
  | .str s => out ++ quote extra s
  | .arr items => writeItems num extra (out ++ "[") true items ++ "]"
  | .obj members => writeMembers num extra (out ++ "\x7b") true members ++ "\x7d"

/-- Appends the items of a list. -/
def writeItems (num : Numerals) (extra : Char → Bool) (out : String) (first : Bool) :
    List Json → String
  | [] => out
  | j :: rest =>
    let out := if first then out else out ++ ","
    writeItems num extra (writeCompact num extra out j) false rest

/-- Appends the members of an object. -/
def writeMembers (num : Numerals) (extra : Char → Bool) (out : String) (first : Bool) :
    List (String × Json) → String
  | [] => out
  | (name, j) :: rest =>
    let out := if first then out else out ++ ","
    writeMembers num extra (writeCompact num extra (out ++ quote extra name ++ ":") j) false rest

end

/-- A value on one line, with the given characters escaped besides those that must be. -/
def compactWith (num : Numerals) (extra : Char → Bool) (j : Json) : String :=
  writeCompact num extra "" j

/-- A value on one line. -/
def compact (num : Numerals) (j : Json) : String :=
  j.compactWith num fun _ => false

/-- The start of a line at a depth of nesting. -/
def newLine (depth : Nat) : String :=
  "\n" ++ String.ofList (List.replicate (2 * depth) ' ')

mutual

/-- Appends a value over several lines. Empty lists and objects stay on one line. -/
def writePretty (num : Numerals) (depth : Nat) (out : String) : Json → String
  | .arr [] => out ++ "[]"
  | .obj [] => out ++ "\x7b\x7d"
  | .arr items => prettyItems num (depth + 1) (out ++ "[") true items ++ newLine depth ++ "]"
  | .obj members =>
    prettyMembers num (depth + 1) (out ++ "\x7b") true members ++ newLine depth ++ "\x7d"
  | j => writeCompact num (fun _ => false) out j

/-- Appends the items of a list, one a line. -/
def prettyItems (num : Numerals) (depth : Nat) (out : String) (first : Bool) : List Json → String
  | [] => out
  | j :: rest =>
    let out := (if first then out else out ++ ",") ++ newLine depth
    prettyItems num depth (writePretty num depth out j) false rest

/-- Appends the members of an object, one a line. -/
def prettyMembers (num : Numerals) (depth : Nat) (out : String) (first : Bool) :
    List (String × Json) → String
  | [] => out
  | (name, j) :: rest =>
    let out := (if first then out else out ++ ",") ++ newLine depth
    prettyMembers num depth
      (writePretty num depth (out ++ quote (fun _ => false) name ++ ": ") j) false rest

end

/-- A value over several lines. -/
def pretty (num : Numerals) (j : Json) : String :=
  writePretty num 0 "" j

end CoLang.Json
