import CoLang.Config.Draft
import CoLang.Json.Token
/-!
# Configuration files

Configuration files are written in TOML: comments, tables under headers, and one `key = value` a
line. Values are texts, whole numbers, floats, truth values, dates and times, lists and inline
tables. Every reader gives what it read and the characters behind it.
-/

namespace CoLang.Config.Toml

/-! ## Blanks and line ends -/

/-- Skips blanks on a line. -/
def skipBlanks (cs : List Char) : List Char :=
  cs.dropWhile fun c => c == ' ' || c == '\t'

/-- Skips blanks and a comment at the end of a line. -/
def skipRest (cs : List Char) : List Char :=
  match skipBlanks cs with
  | '#' :: rest => rest.dropWhile fun c => c != '\n'
  | rest => rest

/-- Skips blanks, line ends and comments inside a list. -/
def skipVoid : Bool → List Char → List Char
  | _, [] => []
  | true, c :: rest => if c = '\n' then skipVoid false rest else skipVoid true rest
  | false, c :: rest =>
    if c = ' ' ∨ c = '\t' ∨ c = '\n' then skipVoid false rest
    else if c = '#' then skipVoid true rest
    else c :: rest

/-- The character that may stand in comments only. -/
def delete : Char := Char.ofNat 0x7F

/-- The text with every line end written as one character, if it holds no other control characters
than tabs and deletes. -/
def normalize? : List Char → Option (List Char)
  | [] => some []
  | '\r' :: '\n' :: rest => (normalize? rest).map ('\n' :: ·)
  | c :: rest =>
    if c.toNat < 0x20 ∧ c ≠ '\t' ∧ c ≠ '\n' then none
    else (normalize? rest).map (c :: ·)

/-! ## Texts -/

/-- The character of a number of hexadecimal digits. -/
def hexChar? (digits : List Char) : Option Char := do
  let n ← digits.foldlM (fun n c => (Json.hexValue? c).map (n * 16 + ·)) 0
  if n.isValidChar then some (Char.ofNat n) else none

/-- The character of an escape of one letter. -/
def shortEscape? : Char → Option Char
  | 'b' => some (Char.ofNat 8)
  | 't' => some '\t'
  | 'n' => some '\n'
  | 'f' => some (Char.ofNat 12)
  | 'r' => some '\r'
  | '"' => some '"'
  | '\\' => some '\\'
  | _ => none

/-- The character of an escape, behind its backslash. -/
def escape? : List Char → Option (Char × List Char)
  | 'u' :: a :: b :: c :: d :: rest => (hexChar? [a, b, c, d]).map (·, rest)
  | 'U' :: a :: b :: c :: d :: e :: f :: g :: h :: rest =>
    (hexChar? [a, b, c, d, e, f, g, h]).map (·, rest)
  | c :: rest => (shortEscape? c).map (·, rest)
  | [] => none

/-- The rest of a text in double quotes, with the characters so far in reverse. -/
def basicText : Nat → List Char → List Char → Option (String × List Char)
  | 0, _, _ => none
  | _, _, [] => none
  | _, chars, '"' :: rest => some (String.ofList chars.reverse, rest)
  | fuel + 1, chars, '\\' :: rest => do
    let (c, rest) ← escape? rest
    basicText fuel (c :: chars) rest
  | fuel + 1, chars, c :: rest =>
    if c = '\n' ∨ c = delete then none else basicText fuel (c :: chars) rest

/-- The rest of a text in single quotes, which has no escapes. -/
def literalText (cs : List Char) : Option (String × List Char) :=
  let body := cs.takeWhile fun c => c != '\'' && c != '\n' && c != delete
  match cs.drop body.length with
  | '\'' :: rest => some (String.ofList body, rest)
  | _ => none

/-- Skips the line end right behind the opening quotes of a text over several lines. -/
def skipFirstEnd : List Char → List Char
  | '\n' :: rest => rest
  | cs => cs

/-- Ends a text over several lines, behind three of its quotes. Up to two more belong to the
text. -/
def closeQuotes (quote : Char) (chars rest : List Char) : String × List Char :=
  let more := (rest.take 2).takeWhile (· == quote)
  (String.ofList (chars.reverse ++ more), rest.drop more.length)

/-- The rest of a text in three double quotes, with the characters so far in reverse. A backslash at
the end of a line takes the line end and the blanks behind it away. -/
def longText : Nat → List Char → List Char → Option (String × List Char)
  | 0, _, _ => none
  | _, _, [] => none
  | _, chars, '"' :: '"' :: '"' :: rest => some (closeQuotes '"' chars rest)
  | fuel + 1, chars, '\\' :: rest =>
    match skipBlanks rest with
    | '\n' :: rest =>
      longText fuel chars (rest.dropWhile fun c => c == ' ' || c == '\t' || c == '\n')
    | _ => do
      let (c, rest) ← escape? rest
      longText fuel (c :: chars) rest
  | fuel + 1, chars, c :: rest => if c = delete then none else longText fuel (c :: chars) rest

/-- The rest of a text in three single quotes, with the characters so far in reverse. -/
def longLiteral (chars : List Char) : List Char → Option (String × List Char)
  | [] => none
  | '\'' :: '\'' :: '\'' :: rest => some (closeQuotes '\'' chars rest)
  | c :: rest => if c = delete then none else longLiteral (c :: chars) rest

/-- A text, of any kind. -/
def text? : List Char → Option (String × List Char)
  | '"' :: '"' :: '"' :: rest => longText (rest.length + 1) [] (skipFirstEnd rest)
  | '\'' :: '\'' :: '\'' :: rest => longLiteral [] (skipFirstEnd rest)
  | '"' :: rest => basicText (rest.length + 1) [] rest
  | '\'' :: rest => literalText rest
  | _ => none

/-! ## Numbers and truth values -/

/-- Digits without the underscores between them, of which two never meet and none stands at an end.
-/
def plainDigits? (isDigit : Char → Bool) : List Char → Option (List Char)
  | [] => none
  | [c] => if isDigit c then some [c] else none
  | c :: '_' :: rest =>
    if isDigit c then (plainDigits? isDigit rest).map (c :: ·) else none
  | c :: rest =>
    if isDigit c then (plainDigits? isDigit rest).map (c :: ·) else none

/-- A whole number that fits a signed word. -/
def wordItem? (n : Int) : Option Item :=
  if Int64.minValue.toInt ≤ n ∧ n ≤ Int64.maxValue.toInt then some (.int (Int64.ofInt n)) else none

/-- A number in a base, behind its mark. -/
def based? (base : Nat) (digits : List Char) : Option Item := do
  let isDigit (c : Char) : Bool := match Json.hexValue? c with
    | some d => d < base
    | none => false
  let plain ← plainDigits? isDigit digits
  let n ← plain.foldlM (fun n c => (Json.hexValue? c).map (n * base + ·)) 0
  wordItem? n

/-- The digits in front of the point, without a zero in front of others. -/
def wholeDigits? (cs : List Char) : Option (List Char) := do
  let plain ← plainDigits? Char.isDigit cs
  if plain.head? = some '0' ∧ 1 < plain.length then none else some plain

/-- The exponent of a float, behind its mark. -/
def exponent? (cs : List Char) : Option Int :=
  let (negative, cs) := match cs with
    | '-' :: cs => (true, cs)
    | '+' :: cs => (false, cs)
    | cs => (false, cs)
  (plainDigits? Char.isDigit cs).map fun plain =>
    if negative then -(Decimal.digitsValue plain : Int) else (Decimal.digitsValue plain : Int)

/-- A number in base ten, behind its sign. A float may be too large only below zero. -/
def decimal? (negative : Bool) (cs : List Char) : Option Item := do
  let isMark (c : Char) : Bool := c == 'e' || c == 'E'
  let mantissa := cs.takeWhile fun c => !isMark c
  let tail := cs.drop mantissa.length
  let whole ← wholeDigits? (mantissa.takeWhile (· != '.'))
  let float (fraction : List Char) (e : Int) : Option Item :=
    let x := Decimal.toFloat negative
      ⟨Decimal.digitsValue (whole ++ fraction), e - fraction.length⟩
    if Decimal.isFinite x || negative then some (.float x) else none
  match mantissa.dropWhile (· != '.'), tail with
  | [], [] =>
    let n : Int := Decimal.digitsValue whole
    wordItem? (if negative then -n else n)
  | [], _ :: tail => float [] (← exponent? tail)
  | _ :: fraction, [] => float (← plainDigits? Char.isDigit fraction) 0
  | _ :: fraction, _ :: tail =>
    float (← plainDigits? Char.isDigit fraction) (← exponent? tail)

/-- A value that is one word: a truth value or a number. -/
def scalar? (cs : List Char) : Option Item :=
  match String.ofList cs with
  | "true" => some (.bool true)
  | "false" => some (.bool false)
  | _ =>
    match cs with
    | '0' :: 'x' :: digits => based? 16 digits
    | '0' :: 'o' :: digits => based? 8 digits
    | '0' :: 'b' :: digits => based? 2 digits
    | _ =>
      let (negative, cs) := match cs with
        | '-' :: cs => (true, cs)
        | '+' :: cs => (false, cs)
        | cs => (false, cs)
      match String.ofList cs with
      | "inf" | "nan" =>
        let sign := if negative then "-" else ""
        (Decimal.readFloat (sign ++ String.ofList cs)).map .float
      | _ => decimal? negative cs

/-! ## Keys -/

/-- Whether a character may stand in a key without quotes. -/
def isBare (c : Char) : Bool :=
  c.isAlphanum || c == '_' || c == '-'

/-- One part of a key. -/
def keyPart : List Char → Option (String × List Char)
  | '"' :: rest => basicText (rest.length + 1) [] rest
  | '\'' :: rest => literalText rest
  | cs =>
    match cs.takeWhile isBare with
    | [] => none
    | bare => some (String.ofList bare, cs.drop bare.length)

/-- How many parts a key may have, and how many levels deep lists and inline tables may nest. -/
def maxDepth : Nat := 79

/-- A dotted key of at most so many parts. -/
def keyParts : Nat → List Char → Option ((List String) × List Char)
  | 0, _ => none
  | more + 1, cs => do
    let (part, rest) ← keyPart (skipBlanks cs)
    match skipBlanks rest with
    | '.' :: rest => do
      let (parts, rest) ← keyParts more rest
      return (part :: parts, rest)
    | rest => return ([part], rest)

/-- A dotted key, as the way to its last part and that part. -/
def key (cs : List Char) : Option ((List String × String) × List Char) := do
  let (parts, rest) ← keyParts maxDepth cs
  return ((parts.dropLast, ← parts.getLast?), rest)

/-- The equals sign behind a key. -/
def equals (cs : List Char) : Option (List Char) :=
  match skipBlanks cs with
  | '=' :: rest => some (skipBlanks rest)
  | _ => none

/-! ## Dates and times -/

/-- A number of two digits within bounds. -/
def twoDigits (low high : Nat) : List Char → Option (List Char × List Char)
  | a :: b :: rest =>
    let n := Decimal.digitsValue [a, b]
    if a.isDigit ∧ b.isDigit ∧ low ≤ n ∧ n ≤ high then some ([a, b], rest) else none
  | _ => none

/-- A given character. -/
def mark (c : Char) : List Char → Option (List Char)
  | d :: rest => if d = c then some rest else none
  | [] => none

/-- The number of days of a month. -/
def daysOf (year month : Nat) : Nat :=
  if month = 2 then
    if year % 4 = 0 ∧ (year % 100 ≠ 0 ∨ year % 400 = 0) then 29 else 28
  else if month ∈ [4, 6, 9, 11] then 30
  else 31

/-- A date: a year of four digits, a month and a day. -/
def date? (cs : List Char) : Option (List Char × List Char) := do
  let year := cs.take 4
  if year.length = 4 ∧ year.all Char.isDigit then
    let (month, rest) ← twoDigits 1 12 (← mark '-' (cs.drop 4))
    let days := daysOf (Decimal.digitsValue year) (Decimal.digitsValue month)
    let (day, rest) ← twoDigits 1 days (← mark '-' rest)
    return (year ++ '-' :: month ++ '-' :: day, rest)
  else none

/-- The fraction of a second, if there is one. Nine digits count, without zeros at the end. -/
def secondPart (cs : List Char) : List Char × List Char :=
  match cs with
  | '.' :: rest =>
    match Decimal.spanDigits rest with
    | ([], _) => ([], cs)
    | (digits, rest) =>
      match (((digits.take 9).reverse.dropWhile (· == '0')).reverse) with
      | [] => ([], rest)
      | kept => ('.' :: kept, rest)
  | _ => ([], cs)

/-- A time of day. A minute may have a leap second. -/
def time? (cs : List Char) : Option (List Char × List Char) := do
  let (hour, rest) ← twoDigits 0 23 cs
  let (minute, rest) ← twoDigits 0 59 (← mark ':' rest)
  let (second, rest) ← twoDigits 0 60 (← mark ':' rest)
  let (part, rest) := secondPart rest
  return (hour ++ ':' :: minute ++ ':' :: second ++ part, rest)

/-- The distance of a time from the universal one, if it is given. -/
def zone (cs : List Char) : List Char × List Char :=
  let distance (sign : Char) (rest : List Char) : Option (List Char × List Char) := do
    let (hour, rest) ← twoDigits 0 23 rest
    let (minute, rest) ← twoDigits 0 59 (← mark ':' rest)
    -- No distance at all has no sign of its own.
    let sign := if hour = ['0', '0'] ∧ minute = ['0', '0'] then '+' else sign
    return (sign :: hour ++ ':' :: minute, rest)
  match cs with
  | 'Z' :: rest | 'z' :: rest => (['Z'], rest)
  | '+' :: rest => (distance '+' rest).getD ([], cs)
  | '-' :: rest => (distance '-' rest).getD ([], cs)
  | _ => ([], cs)

/-- A date, a time of day, or both with a letter or a blank between them. -/
def moment? (cs : List Char) : Option (List Char × List Char) :=
  match date? cs with
  | none => time? cs
  | some (date, rest) =>
    let time := match rest with
      | 'T' :: rest | 't' :: rest | ' ' :: rest => time? rest
      | _ => none
    match time with
    | none => some (date, rest)
    | some (time, rest) =>
      let (zone, rest) := zone rest
      some (date ++ 'T' :: time ++ zone, rest)

/-! ## Values -/

/-- A value that is no list and no table. Dates and times are kept as texts. -/
def simpleValue (cs : List Char) : Option (Item × List Char) :=
  match text? cs with
  | some (s, rest) => some (.str s, rest)
  | none =>
    match moment? cs with
    | some (moment, rest) => some (.str (String.ofList moment), rest)
    | none => do
      let word := cs.takeWhile fun c => c.isAlphanum || c == '_' || c == '+' || c == '-' || c == '.'
      return (← scalar? word, cs.drop word.length)

mutual

/-- A value, with lists and tables nested at most `room` levels deep. -/
def value : Nat → Nat → List Char → Option (Item × List Char)
  | fuel + 1, room + 1, '[' :: rest => items fuel room [] rest
  | fuel + 1, room + 1, '\x7b' :: rest =>
    match skipBlanks rest with
    | '\x7d' :: rest => some (.table [], rest)
    | rest => inlineEntries fuel room [] rest
  | _, _, cs => simpleValue cs

/-- The rest of a list, with the items so far in reverse. A comma may follow the last item. -/
def items : Nat → Nat → List Item → List Char → Option (Item × List Char)
  | 0, _, _, _ => none
  | fuel + 1, room, done, cs =>
    match skipVoid false cs with
    | ']' :: rest => some (.list done.reverse, rest)
    | cs => do
      let (item, rest) ← value fuel room cs
      match skipVoid false rest with
      | ',' :: rest => items fuel room (item :: done) rest
      | ']' :: rest => some (.list (item :: done).reverse, rest)
      | _ => none

/-- The rest of an inline table, at the start of a key. -/
def inlineEntries : Nat → Nat → Draft.Entries → List Char → Option (Item × List Char)
  | 0, _, _, _ => none
  | fuel + 1, room, done, cs => do
    let ((path, name), rest) ← key cs
    let (item, rest) ← value fuel room (← equals rest)
    let done ← Draft.assign name item path done
    match skipBlanks rest with
    | ',' :: rest => inlineEntries fuel room done rest
    | '\x7d' :: rest => some ((Draft.table .dotted done).finish, rest)
    | _ => none

end

/-! ## Files -/

/-- A file read so far: its tables, and the header that the next lines belong to. -/
structure State where
  root : Draft.Entries
  header : List String

/-- The header of a table or of the next of a list of tables, behind its bracket. -/
def header (s : State) (isList : Bool) (cs : List Char) : Option (State × List Char) := do
  let ((path, name), rest) ← key cs
  let begun := if isList then Draft.openNext name else Draft.openTable name
  let root ← Draft.modifyAt begun path s.root
  let rest ← match isList, rest with
    | false, ']' :: rest => some rest
    | true, ']' :: ']' :: rest => some rest
    | _, _ => none
  return (⟨root, path ++ [name]⟩, rest)

/-- A key and its value, in the table of the current header. -/
def keyValue (s : State) (cs : List Char) : Option (State × List Char) := do
  let ((path, name), rest) ← key cs
  let rest ← equals rest
  let (item, rest) ← value (rest.length + 1) maxDepth rest
  let root ← Draft.modifyAt (Draft.assign name item path) s.header s.root
  return ({ s with root }, rest)

/-- Reads lines, at most `fuel` of them. -/
def lines : Nat → State → List Char → Option State
  | 0, _, _ => none
  | fuel + 1, s, cs => do
    let (s, rest) ← match skipRest cs with
      | [] => some (s, [])
      | '\n' :: rest => some (s, '\n' :: rest)
      | '[' :: '[' :: rest => header s true rest
      | '[' :: rest => header s false rest
      | cs => keyValue s cs
    match skipRest rest with
    | [] => some s
    | '\n' :: rest => lines fuel s rest
    | _ => none

/-- Skips a byte order mark. -/
def skipMark : List Char → List Char
  | [] => []
  | c :: cs => if c = '\ufeff' then cs else c :: cs

/-- Reads a configuration file. -/
def parse? (text : String) : Option Item := do
  let cs ← normalize? (skipMark text.toList)
  let s ← lines (cs.length + 1) ⟨[], []⟩ cs
  return (Draft.table .header s.root).finish

end CoLang.Config.Toml
