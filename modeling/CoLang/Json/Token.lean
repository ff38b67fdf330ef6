import CoLang.Json.Basic
import CoLang.Json.Numerals
/-!
# JSON tokens

A text is split into tokens by one pass over its characters. Between two characters the scanner is
in one of a few modes, and the mode and the next character decide what happens.
-/

namespace CoLang.Json

/-- The smallest meaningful parts of a JSON text. -/
inductive Token where
  | beginArr
  | endArr
  | beginObj
  | endObj
  | colon
  | comma
  /-- A number, `true`, `false` or `null`. -/
  | scalar (j : Json)
  /-- A text, or nothing if one of its escapes names no character. -/
  | text (s : Option String)
deriving Inhabited

/-! ## Numbers -/

/-- The whole number of some digits, if it is kept as one. A negative zero is no whole number. -/
def wholeNumber? (negative : Bool) (digits : List Char) : Option Int :=
  let n : Int := Decimal.digitsValue digits
  let n := if negative then -n else n
  if n = 0 ∧ negative then none
  else if intMin ≤ n ∧ n ≤ intMax then some n
  else none

/-- The double that a number is read as. A number that is read as no finite one denotes nothing. -/
def Numerals.double (num : Numerals) (cs : List Char) : Json :=
  match num.read (String.ofList cs) with
  | some x => if Decimal.isFinite x then .float x else .unreadable
  | none => .unreadable

/-- Reads a number: an optional minus, digits without a zero in front of others, an optional point
with digits behind it, an optional exponent. -/
def readNumber (num : Numerals) (cs : List Char) : Option Json :=
  let (negative, rest) :=
    match cs with
    | '-' :: rest => (true, rest)
    | rest => (false, rest)
  let (whole, rest) := Decimal.spanDigits rest
  if whole = [] ∨ (whole.head? = some '0' ∧ 1 < whole.length) then none
  else
    match rest with
    | [] => some (((wholeNumber? negative whole).map .int).getD (num.double cs))
    | '.' :: rest =>
      let (fraction, rest) := Decimal.spanDigits rest
      if fraction = [] then none else (Decimal.exponentPart rest).map fun _ => num.double cs
    | rest => (Decimal.exponentPart rest).map fun _ => num.double cs

/-! ## Texts -/

/-- The part of a text that has been read. Characters beyond the first plane are written as two
escapes, and after the first one the second is due. -/
structure Reading where
  /-- The characters read, the last one first. -/
  chars : List Char
  /-- The first half of a pair whose second half is due. -/
  high : Option Nat
  /-- Whether every escape so far names a character. -/
  sound : Bool

namespace Reading

/-- Nothing read yet. -/
def start : Reading := ⟨[], none, true⟩

/-- Adds a character that stands for itself or has a short escape. -/
def addChar (r : Reading) (c : Char) : Reading :=
  ⟨c :: r.chars, none, r.sound && r.high.isNone⟩

/-- Adds a four-digit escape. -/
def addUnit (r : Reading) (unit : Nat) : Reading :=
  match r.high with
  | some high =>
    if 0xDC00 ≤ unit ∧ unit ≤ 0xDFFF then
      ⟨Char.ofNat (0x10000 + (high - 0xD800) * 0x400 + (unit - 0xDC00)) :: r.chars, none, r.sound⟩
    else ⟨r.chars, none, false⟩
  | none =>
    if 0xD800 ≤ unit ∧ unit ≤ 0xDBFF then ⟨r.chars, some unit, r.sound⟩
    else if 0xDC00 ≤ unit ∧ unit ≤ 0xDFFF then ⟨r.chars, none, false⟩
    else ⟨Char.ofNat unit :: r.chars, none, r.sound⟩

/-- The text that was read. -/
def finish (r : Reading) : Option String :=
  if r.sound && r.high.isNone then some (String.ofList r.chars.reverse) else none

end Reading

/-- The character of a short escape. -/
def shortEscape? : Char → Option Char
  | '"' => some '"'
  | '\\' => some '\\'
  | '/' => some '/'
  | 'b' => some (Char.ofNat 8)
  | 'f' => some (Char.ofNat 12)
  | 'n' => some '\n'
  | 'r' => some '\r'
  | 't' => some '\t'
  | _ => none

/-- The value of a hexadecimal digit. -/
def hexValue? (c : Char) : Option Nat :=
  if c.isDigit then some (c.toNat - 48)
  else if 'a' ≤ c ∧ c ≤ 'f' then some (c.toNat - 87)
  else if 'A' ≤ c ∧ c ≤ 'F' then some (c.toNat - 55)
  else none

/-! ## Scanning -/

/-- Where the scanner stands. -/
inductive Mode where
  | between
  /-- In a word, with its characters in reverse. -/
  | word (chars : List Char)
  /-- In a number, with its characters in reverse. -/
  | number (chars : List Char)
  | text (r : Reading)
  /-- Behind a backslash. -/
  | escape (r : Reading)
  /-- In a four-digit escape, with the digits still due and the value so far. -/
  | hex (r : Reading) (due : Nat) (value : Nat)

/-- The token of a word. -/
def wordToken? (chars : List Char) : Option Token :=
  match String.ofList chars.reverse with
  | "null" => some (.scalar .null)
  | "true" => some (.scalar (.bool true))
  | "false" => some (.scalar (.bool false))
  | _ => none

/-- The token of a number. -/
def numberToken? (num : Numerals) (chars : List Char) : Option Token :=
  (readNumber num chars.reverse).map .scalar

/-- Whether a character can stand in a number behind its first one. -/
def inNumber (c : Char) : Bool :=
  c.isDigit || c == '-' || c == '+' || c == '.' || c == 'e' || c == 'E'

/-- The mode and the tokens, in reverse, when a character comes between two tokens. -/
def scanBetween (tokens : List Token) (c : Char) : Option (Mode × List Token) :=
  if c = ' ' ∨ c = '\t' ∨ c = '\n' ∨ c = '\r' then some (.between, tokens)
  else if c = '[' then some (.between, .beginArr :: tokens)
  else if c = ']' then some (.between, .endArr :: tokens)
  else if c = '\x7b' then some (.between, .beginObj :: tokens)
  else if c = '\x7d' then some (.between, .endObj :: tokens)
  else if c = ':' then some (.between, .colon :: tokens)
  else if c = ',' then some (.between, .comma :: tokens)
  else if c = '"' then some (.text .start, tokens)
  else if c = '-' ∨ c.isDigit then some (.number [c], tokens)
  else if c.isLower then some (.word [c], tokens)
  else none

/-- The scanner's state behind one more character. -/
def scanChar (num : Numerals) : Mode × List Token → Char → Option (Mode × List Token)
  | (.between, tokens), c => scanBetween tokens c
  | (.word chars, tokens), c =>
    if c.isLower then some (.word (c :: chars), tokens)
    else (wordToken? chars).bind fun t => scanBetween (t :: tokens) c
  | (.number chars, tokens), c =>
    if inNumber c then some (.number (c :: chars), tokens)
    else (numberToken? num chars).bind fun t => scanBetween (t :: tokens) c
  | (.text r, tokens), c =>
    if c = '"' then some (.between, .text r.finish :: tokens)
    else if c = '\\' then some (.escape r, tokens)
    else if c.toNat < 0x20 then none
    else some (.text (r.addChar c), tokens)
  | (.escape r, tokens), c =>
    if c = 'u' then some (.hex r 4 0, tokens)
    else (shortEscape? c).map fun d => (.text (r.addChar d), tokens)
  | (.hex r due value, tokens), c =>
    (hexValue? c).map fun digit =>
      if due ≤ 1 then (.text (r.addUnit (value * 16 + digit)), tokens)
      else (.hex r (due - 1) (value * 16 + digit), tokens)

/-- The tokens of a text, if it splits into tokens. -/
def tokens? (num : Numerals) (text : String) : Option (List Token) := do
  let (mode, tokens) ← text.toList.foldlM (scanChar num) (.between, [])
  match mode with
  | .between => some tokens.reverse
  | .word chars => (wordToken? chars).map fun t => (t :: tokens).reverse
  | .number chars => (numberToken? num chars).map fun t => (t :: tokens).reverse
  | .text _ | .escape _ | .hex .. => none

end CoLang.Json
