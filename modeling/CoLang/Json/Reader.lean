import CoLang.Json.Token
/-!
# Reading JSON

The reader takes the tokens one by one and keeps the lists and objects that are still open on a
stack, so that texts may nest to any depth.
-/

namespace CoLang.Json

/-- A list or object that is still open, with what it holds so far in reverse. -/
inductive Open where
  | list (items : List Json)
  /-- An object at the value of a member, with the member's name. -/
  | object (members : List (Option String × Json)) (name : Option String)

/-- What the reader expects next. -/
inductive Expecting where
  /-- A value, or the end of the list when it is empty so far. -/
  | value (stack : List Open) (mayClose : Bool)
  /-- The name of a member, or the end of the object when it is empty so far. -/
  | name (members : List (Option String × Json)) (stack : List Open) (mayClose : Bool)
  /-- The colon behind a name. -/
  | colon (name : Option String) (members : List (Option String × Json)) (stack : List Open)
  /-- A comma or an end, behind a value. -/
  | separator (value : Json) (stack : List Open)

/-- The object of the given members, in reverse. A member without a readable name makes the whole
object unreadable. -/
def closeObject (members : List (Option String × Json)) : Json :=
  match members.reverse.mapM fun m => m.1.map fun name => (name, m.2) with
  | some members => .obj members
  | none => .unreadable

/-- What a token that is a whole value denotes. -/
def Token.value? : Token → Option Json
  | .scalar j => some j
  | .text (some s) => some (.str s)
  | .text none => some .unreadable
  | _ => none

/-- The reader's state behind one more token. -/
def readToken : Expecting → Token → Option Expecting
  | .value stack _, .beginArr => some (.value (.list [] :: stack) true)
  | .value stack _, .beginObj => some (.name [] stack true)
  | .value (.list [] :: stack) true, .endArr => some (.separator (.arr []) stack)
  | .value stack _, t => t.value?.map fun j => .separator j stack
  | .name members stack _, .text s => some (.colon s members stack)
  | .name _ stack true, .endObj => some (.separator (.obj []) stack)
  | .colon name members stack, .colon => some (.value (.object members name :: stack) false)
  | .separator j (.list items :: stack), .comma => some (.value (.list (j :: items) :: stack) false)
  | .separator j (.list items :: stack), .endArr =>
    some (.separator (.arr (j :: items).reverse) stack)
  | .separator j (.object members name :: stack), .comma =>
    some (.name ((name, j) :: members) stack false)
  | .separator j (.object members name :: stack), .endObj =>
    some (.separator (closeObject ((name, j) :: members)) stack)
  | _, _ => none

/-- Reads a text that holds one JSON value and nothing else. -/
def parse? (num : Numerals) (text : String) : Option Json := do
  let tokens ← tokens? num text
  match ← tokens.foldlM readToken (.value [] false) with
  | .separator j [] => some j
  | _ => none

end CoLang.Json
