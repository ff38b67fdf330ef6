/-!
# Paths of files

A path is a text with slashes between its steps. Steps that are empty or a single dot stay in place,
and two dots lead back.
-/

namespace CoLang.Path

/-- The steps of a path. -/
def steps (path : String) : List String :=
  path.splitOn "/"

/-- Whether a step stays in place. -/
def staysInPlace (step : String) : Bool :=
  step == "" || step == "."

/-- The step that leads back. -/
def back : String := ".."

/-- The extension of a file name, behind its last dot. A dot at the start of the name begins none.
-/
def extension? (path : String) : Option String :=
  match ((steps path).getLast?.getD "").splitOn "." with
  | [] | [_] => none
  | ["", _] => none
  | parts => parts.getLast?

/-- The path with an extension added to its last step that names something. Steps behind it that
stay in place are dropped. There is no such path when nothing is named at its end. -/
def withExtension? (path extension : String) : Option String :=
  match (steps path).reverse.dropWhile staysInPlace with
  | [] => none
  | name :: earlier =>
    if name = back then none
    else some ("/".intercalate (earlier.reverse ++ [name ++ "." ++ extension]))

/-- How many bytes a name may have. -/
def maxNameSize : Nat := 255

/-- How many bytes a path may have. -/
def maxSize : Nat := 4095

/-- Whether a path can be the path of a file: neither it nor one of its steps is too long, and it
has no zero character. -/
def isSound (path : String) : Bool :=
  path.utf8ByteSize ≤ maxSize && (steps path).all (·.utf8ByteSize ≤ maxNameSize)
    && !path.toList.contains (Char.ofNat 0)

end CoLang.Path
