import CoLang.Config.Item
/-!
# Places in a configuration

An entry of a configuration is addressed by a text such as `a.b[0].c`: names of tables with dots
between them, and numbers of list items in brackets. Storing at a place makes the tables and lists
on the way, in place of whatever else stood there.
-/

namespace CoLang.Config

/-- One step on the way to an entry. -/
inductive Step where
  /-- The entry of a table. -/
  | name (name : String)
  /-- The item of a list. A negative number counts from the end. -/
  | index (index : Int)
deriving DecidableEq, Repr, Inhabited

namespace Step

/-! ## Reading places -/

/-- Whether a character may stand in a name. -/
def isNameChar (c : Char) : Bool :=
  c.isAlphanum || c == ' ' || c == '_' || c == '-'

/-- Splits a name off the front. It has at least one character. -/
def readName (cs : List Char) : Option (Step × List Char) :=
  match cs.takeWhile isNameChar with
  | [] => none
  | chars => some (.name (String.ofList chars), cs.drop chars.length)

/-- Splits the number of a list item off the front, with its closing bracket. There may be blanks
around the number, which fits a signed word. -/
def readIndex (cs : List Char) : Option (Step × List Char) :=
  let skipBlanks (cs : List Char) := cs.dropWhile fun c => c == ' ' || c == '\t'
  let (negative, cs) := match skipBlanks cs with
    | '-' :: cs => (true, cs)
    | cs => (false, cs)
  let (digits, cs) := Decimal.spanDigits cs
  let n : Int :=
    if negative then -(Decimal.digitsValue digits : Int) else Decimal.digitsValue digits
  match skipBlanks cs with
  | ']' :: rest =>
    if digits ≠ [] ∧ Int64.minValue.toInt ≤ n ∧ n ≤ Int64.maxValue.toInt then
      some (.index n, rest)
    else none
  | _ => none

/-- Reads the steps behind the first one, at most `fuel` of them. -/
def readMore : Nat → List Char → Option (List Step)
  | _, [] => some []
  | 0, _ => none
  | fuel + 1, c :: cs => do
    let (step, rest) ←
      if c = '.' then readName cs
      else if c = '[' then readIndex cs
      else none
    return step :: (← readMore fuel rest)

/-- The place that a text addresses. -/
def parse? (text : String) : Option (List Step) := do
  let (first, rest) ← readName text.toList
  return first :: (← readMore rest.length rest)

/-- The place that a text addresses. A text that is no address is the name of an entry as a
whole. -/
def ofText (text : String) : List Step :=
  (parse? text).getD [.name text]

end Step

namespace Item

/-! ## Storing -/

/-- The items of a list with a place for the item of a number, and where that place is. The list is
extended at the end or, for numbers from the end, at the front. -/
def makePlace (items : List Item) (index : Int) : List Item × Nat :=
  let extra := index.natAbs
  if 0 ≤ index then (items ++ List.replicate (extra + 1 - items.length) .nothing, extra)
  else if extra ≤ items.length then (items, items.length - extra)
  else (List.replicate (extra - items.length) .nothing ++ items, 0)

/-- Stores an item at a place below another item. Under a name it is laid over what is there, and as
the item of a list it replaces what is there. Names are taken in lower case. -/
def store (item : Item) : List Step → Item → Item
  | [], _ => item
  | [.name name], old =>
    let name := lower name
    .table (old.entries.set name (overlay ((old.entries.get? name).getD (.table [])) item))
  | .name name :: rest, old =>
    let name := lower name
    .table (old.entries.set name (store item rest ((old.entries.get? name).getD .nothing)))
  | .index index :: rest, old =>
    let (items, place) := makePlace old.items index
    .list (items.modify place (store item rest))

end Item

end CoLang.Config
