import CoLang.Command.Perform
/-!
# A folder of files

A host that keeps its files in memory. Relative paths start at the folder, and every step but the
last must lead to a folder that holds something. What lies above the folder is out of sight: nothing
is found there, and what is written there is not kept.
-/

namespace CoLang

/-- Files by path. -/
structure Folder where
  files : Assoc String
deriving Inhabited

namespace Folder

/-- Where a path leads. -/
inductive Target where
  /-- To a place within the folder, given by the names on the way. -/
  | inside (names : List String)
  /-- To a name right above the folder, or further up. -/
  | above
deriving DecidableEq, Repr, Inhabited

/-- The names on the way to a file of the folder. -/
def namesOf (path : String) : List String :=
  (Path.steps path).filter fun step => !Path.staysInPlace step

/-- Whether names lead to a folder that holds a file. -/
def isFolder (f : Folder) (names : List String) : Bool :=
  names == [] || f.files.any fun file =>
    let all := namesOf file.1
    names.length < all.length && all.take names.length == names

/-- Follows the steps of a path from a folder within the folder. -/
def follow (f : Folder) : List String → List String → Option Target
  | names, [] => some (.inside names)
  | names, step :: rest =>
    if !f.isFolder names then none
    else if Path.staysInPlace step then f.follow names rest
    else if step = Path.back then
      if names = [] then if rest.length = 1 then some .above else none
      else f.follow names.dropLast rest
    else f.follow (names ++ [step]) rest

/-- The path of what is always empty and takes whatever is written. -/
def nullPath : String := "/dev/null"

/-- Where a path leads. Of what lies outside the folder, only the level above it and the null path
are there. -/
def target? (f : Folder) (path : String) : Option Target :=
  if path = nullPath then some .above
  else if path.toList.head? = some '/' then none
  else if Path.isSound path then f.follow [] (Path.steps path)
  else none

/-- The text of a file. -/
def read? (f : Folder) (path : String) : Option String :=
  if path = nullPath then some ""
  else
    match f.target? path with
    | some (.inside names) => (f.files.find? fun file => namesOf file.1 == names).map Prod.snd
    | _ => none

/-- The folder with a file written, unless its path leads nowhere or to a folder. -/
def write? (f : Folder) (path text : String) : Option Folder :=
  match f.target? path with
  | none => none
  | some .above => some f
  | some (.inside names) =>
    if f.isFolder names then none
    else
      match f.files.find? fun file => namesOf file.1 == names with
      | some file => some ⟨f.files.set file.1 text⟩
      | none => some ⟨f.files ++ [("/".intercalate names, text)]⟩

/-- The host of a folder. -/
def host : Host (StateM Folder) where
  read path := do
    match (← get).read? path with
    | some text => return .ok text
    | none => return .error "no such file"
  write path text := do
    match (← get).write? path text with
    | some f => set f; return .ok ()
    | none => return .error "no such folder"
  numerals := .exact
  complaint _ := "no program"
  identities n := ⟨BitVec.ofNat 128 n⟩

end Folder

end CoLang
