import CoLang.Config.Item
/-!
# Tables under construction

A configuration file fills its tables in pieces: under a header, through dotted names, or as one
value. A table that was given one way may not be given again another way, and no name twice.
-/

namespace CoLang.Config

/-- How a table came to be. -/
inductive Origin where
  /-- It has a header of its own. -/
  | header
  /-- It only lies on the way to a header. -/
  | implied
  /-- It lies on the way of a dotted name. -/
  | dotted
deriving DecidableEq, Repr, Inhabited

/-- What a name stands for so far. -/
inductive Draft where
  | value (item : Item)
  | table (origin : Origin) (entries : List (String × Draft))
  /-- A list of tables, each begun by a header, the latest first. -/
  | tables (items : List (List (String × Draft)))
deriving Inhabited

namespace Draft

/-- The entries of a table so far. -/
abbrev Entries := Assoc Draft

/-- Changes the table at the end of a path of headers. Missing tables on the way are implied, and of
a list of tables the latest is meant. -/
def modifyAt (change : Entries → Option Entries) : List String → Entries → Option Entries
  | [], es => change es
  | name :: path, es =>
    match es.get? name with
    | none => do
      let inner ← modifyAt change path []
      return es.set name (.table .implied inner)
    | some (.table origin inner) => do
      let inner ← modifyAt change path inner
      return es.set name (.table origin inner)
    | some (.tables (latest :: earlier)) => do
      let latest ← modifyAt change path latest
      return es.set name (.tables (latest :: earlier))
    | some _ => none

/-- Begins the table of a header. It may have been implied before, but nothing else. -/
def openTable (name : String) (es : Entries) : Option Entries :=
  match es.get? name with
  | none => some (es.set name (.table .header []))
  | some (.table .implied inner) => some (es.set name (.table .header inner))
  | some _ => none

/-- Begins the next table of a list of tables. -/
def openNext (name : String) (es : Entries) : Option Entries :=
  match es.get? name with
  | none => some (es.set name (.tables [[]]))
  | some (.tables items) => some (es.set name (.tables ([] :: items)))
  | some _ => none

/-- Gives a value to a dotted name. The table that gets it must not have a header. -/
def assign (name : String) (item : Item) : List String → Entries → Option Entries
  | [], es =>
    match es.get? name with
    | none => some (es.set name (.value item))
    | some _ => none
  | step :: path, es =>
    match es.get? step with
    | none => do
      let inner ← assign name item path []
      return es.set step (.table .dotted inner)
    | some (.table .dotted inner) => do
      let inner ← assign name item path inner
      return es.set step (.table .dotted inner)
    | some (.table .implied inner) =>
      if path = [] then none
      else do
        let inner ← assign name item path inner
        return es.set step (.table .implied inner)
    | some (.tables (latest :: earlier)) =>
      if path = [] then none
      else do
        let latest ← assign name item path latest
        return es.set step (.tables (latest :: earlier))
    | some _ => none

mutual

/-- The item of a finished draft. -/
def finish : Draft → Item
  | .value item => item
  | .table _ entries => .table (finishEntries entries)
  | .tables items => .list (finishTables items [])

/-- The entries of a finished table. -/
def finishEntries : List (String × Draft) → List (String × Item)
  | [] => []
  | (name, d) :: rest => (name, finish d) :: finishEntries rest

/-- The tables of a finished list, put in front of `done` in the order of their headers. -/
def finishTables : List (List (String × Draft)) → List Item → List Item
  | [], done => done
  | entries :: rest, done => finishTables rest (.table (finishEntries entries) :: done)

end

end Draft

end CoLang.Config
