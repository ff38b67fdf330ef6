/-!
# Blank characters

The characters with the Unicode property White_Space, and the three ways the language uses them:
trimming a line at its front, trimming it at its end, and taking its first word.
-/

namespace CoLang.Text

/-- The closed ranges of code points that have the property White_Space. -/
def blankRanges : List (Nat × Nat) :=
  [(0x09, 0x0D), (0x20, 0x20), (0x85, 0x85), (0xA0, 0xA0), (0x1680, 0x1680), (0x2000, 0x200A),
    (0x2028, 0x2029), (0x202F, 0x202F), (0x205F, 0x205F), (0x3000, 0x3000)]

/-- Whether a character is white space. -/
def isBlank (c : Char) : Bool :=
  blankRanges.any fun r => r.1 ≤ c.toNat && c.toNat ≤ r.2

/-- The text from its first character that is not blank. -/
def trimFront (cs : List Char) : List Char :=
  cs.dropWhile isBlank

/-- The text up to its last character that is not blank. -/
def trimBack (cs : List Char) : List Char :=
  (cs.reverse.dropWhile isBlank).reverse

/-- The text without the blanks around it. -/
def trim (cs : List Char) : List Char :=
  trimBack (trimFront cs)

/-- The characters before the first blank, once the blanks in front are gone. It is empty exactly
when the text holds nothing but blanks. -/
def firstWord (cs : List Char) : List Char :=
  (trimFront cs).takeWhile fun c => !isBlank c

end CoLang.Text
