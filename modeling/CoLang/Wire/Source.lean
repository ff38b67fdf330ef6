import CoLang.Json.Basic
import CoLang.Decimal.Nearest
/-!
# Reading domain values from JSON

A decoder turns a JSON value into a value of the domain, or refuses it. Where a value stands matters
in two ways. There is a bound on how deep it may nest, and some values are taken in as a whole
before they are looked at, so that everything in them must be readable, also what is then ignored.

Records are written as objects, with unknown members ignored and no known member twice, or as lists
of their fields in order. A choice among names is written as the name. A variant is written as an
object with the name of the variant as the member `t`.
-/

namespace CoLang.Wire

/-- Where a value stands. -/
structure Source where
  /-- The number of levels of lists and objects that may still be entered. -/
  room : Nat
  /-- Whether the value was taken in as a whole before. -/
  whole : Bool
deriving DecidableEq, Repr, Inhabited

/-- How deep a text may nest. -/
def textRoom : Nat := 127

namespace Source

/-- A value that is read from a text. -/
def text : Source := ⟨textRoom, false⟩

/-- A value that is at hand and may nest as deep as it does. -/
def value (j : Json) : Source := ⟨j.height, false⟩

/-- The inside of a list or an object. -/
def enter (s : Source) : Option Source :=
  match s.room with
  | 0 => none
  | room + 1 => some { s with room }

/-- The value itself, taken in as a whole. -/
def takeIn (s : Source) (j : Json) : Option Source :=
  if s.whole then some s
  else if j.fits s.room then some { s with whole := true }
  else none

end Source

/-- A way to read values of a type. -/
abbrev Decoder (α : Type) := Source → Json → Option α

/-! ## Scalars -/

/-- A text. -/
def text : Decoder String
  | _, .str s => some s
  | _, _ => none

/-- A truth value. -/
def boolean : Decoder Bool
  | _, .bool b => some b
  | _, _ => none

/-- A signed word. -/
def word : Decoder Int64
  | _, .int n =>
    if Int64.minValue.toInt ≤ n ∧ n ≤ Int64.maxValue.toInt then some (Int64.ofInt n) else none
  | _, _ => none

/-- A number that counts or points. -/
def count : Decoder Nat
  | _, .int n => if 0 ≤ n then some n.toNat else none
  | _, _ => none

/-- A double. Whole numbers are rounded to the nearest one. -/
def double : Decoder Float
  | _, .int n => some (Decimal.ofInt n)
  | _, .float x => some x
  | _, _ => none

/-- A value or `null`. -/
def optional {α : Type} (d : Json → Option α) : Json → Option (Option α)
  | .null => some none
  | j => (d j).map some

/-- A list. -/
def list {α : Type} (d : Decoder α) (s : Source) : Json → Option (List α)
  | .arr items => do
    let inside ← s.enter
    items.mapM (d inside)
  | _ => none

/-- A choice among names. The name may also stand alone in an object, with nothing behind it. -/
def choice {α : Type} (options : Assoc α) (s : Source) : Json → Option α
  | .str name => options.get? name
  | .obj [(name, j)] => do
    let _ ← s.enter
    match j with
    | .null => options.get? name
    | .obj [] => if s.whole then options.get? name else none
    | _ => none
  | _ => none

/-! ## Records -/

/-- The fields of a record that are present. -/
structure Fields where
  present : Assoc Json
  /-- Whether the record was written as a list. -/
  byPosition : Bool

/-- The fields of a record with the given field names. -/
def fields (names : List String) : Json → Option Fields
  | .obj members =>
    let known := members.filter fun m => names.contains m.1
    if (known.map Prod.fst).Nodup then some ⟨known, false⟩ else none
  | .arr items => if items.length ≤ names.length then some ⟨names.zip items, true⟩ else none
  | _ => none

namespace Fields

/-- A field that must be present. -/
def required {α : Type} (f : Fields) (name : String) (d : Json → Option α) : Option α :=
  (f.present.get? name).bind d

/-- A field with a value for when it is missing. -/
def withDefault {α : Type} (f : Fields) (name : String) (missing : α) (d : Json → Option α) :
    Option α :=
  match f.present.get? name with
  | none => some missing
  | some j => d j

/-- A field that may be `null`, and that may be missing from an object but not from a list. -/
def nullable {α : Type} (f : Fields) (name : String) (d : Json → Option α) : Option (Option α) :=
  match f.present.get? name with
  | none => if f.byPosition then none else some none
  | some j => optional d j

/-- A field that may be `null` or missing. -/
def orNull {α : Type} (f : Fields) (name : String) (d : Json → Option α) : Option (Option α) :=
  f.withDefault name none (optional d)

end Fields

/-! ## Variants -/

/-- The member that names a variant. -/
def tagName : String := "t"

/-- The member that holds what a variant carries, where it carries one value. -/
def contentName : String := "v"

/-- Splits the name of a variant from its fields. As a list, the name comes first. -/
def splitTag : Json → Option (Json × Json)
  | .obj members =>
    match members.filter fun m => m.1 == tagName with
    | [(_, tag)] => some (tag, .obj (members.filter fun m => m.1 != tagName))
    | _ => none
  | .arr (tag :: rest) => some (tag, .arr rest)
  | _ => none

/-- The variant that a tag names. In a value taken in as a whole it may also be given by its place
among the names. -/
def variant (names : List String) (s : Source) : Json → Option String
  | .str name => if names.contains name then some name else none
  | .int n => if s.whole ∧ 0 ≤ n then names[n.toNat]? else none
  | _ => none

/-- Accepts the fields of a variant that has none. -/
def noFields : Json → Option Unit
  | .obj _ => some ()
  | .arr [] => some ()
  | _ => none

/-- How a variant that carries at most one value is written. -/
inductive PairForm where
  /-- As an object, with the name in front of the content or alone. -/
  | tagFirst
  /-- As an object, with the content in front of the name. -/
  | contentFirst
  /-- As a list of the name and the content. -/
  | byPosition
deriving DecidableEq, Repr, Inhabited

/-- A variant that carries at most one value. -/
structure Pair where
  tag : Json
  content : Option Json
  form : PairForm

/-- The parts of a variant that carries at most one value. -/
def pair : Json → Option Pair
  | .obj members =>
    match members.filter fun m => m.1 == tagName || m.1 == contentName with
    | [(a, x)] => if a = tagName then some ⟨x, none, .tagFirst⟩ else none
    | [(a, x), (b, y)] =>
      if a = tagName ∧ b = contentName then some ⟨x, some y, .tagFirst⟩
      else if a = contentName ∧ b = tagName then some ⟨y, some x, .contentFirst⟩
      else none
    | _ => none
  | .arr [tag, content] => some ⟨tag, some content, .byPosition⟩
  | _ => none

/-- Reads a variant that carries at most one value, given the reader of each. In an object the name
is a choice, and what stands in front of it has to be taken in as a whole. In a list it is a tag. -/
def pairOf {α : Type} (variants : Assoc (Source → Option Json → Option α)) (s : Source)
    (j : Json) : Option α := do
  let inside ← s.enter
  let p ← pair j
  match p.form with
  | .tagFirst =>
    let read ← choice variants inside p.tag
    read inside p.content
  | .contentFirst =>
    let read ← choice variants inside p.tag
    let content ← p.content
    read (← inside.takeIn content) (some content)
  | .byPosition =>
    let name ← variant variants.names inside p.tag
    let read ← variants.get? name
    read inside p.content

/-- The content of a variant that must carry a value. -/
def carrying {α : Type} (d : Decoder α) : Source → Option Json → Option α
  | s, some j => d s j
  | _, none => none

/-- The content of a variant that carries nothing: it is missing or `null`. -/
def carryingNothing {α : Type} (a : α) : Source → Option Json → Option α
  | _, none => some a
  | _, some .null => some a
  | _, _ => none

end CoLang.Wire
