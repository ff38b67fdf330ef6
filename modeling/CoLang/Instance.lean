import CoLang.Identity
import CoLang.Machine.Basic
/-!
# Coroutine instances

An instance is one run of a coroutine, held between resumes. The table keeps the instances of a
program by name. An instance that is being resumed is taken out of the table, and its slot remembers
that it runs.

What changes the table gives it back together with the answer, also when the change is refused.
-/

namespace CoLang

/-- One run of a coroutine. -/
structure Instance where
  id : Identity
  /-- The name of the coroutine's declaration. -/
  coroutine : String
  life : Life
  /-- Where the body stands, until the instance has completed. -/
  machine : Option Machine
  /-- How often the instance has been resumed, counted in a word, which wraps around. -/
  resumes : UInt64
deriving Inhabited

/-- What a resume ended with. -/
inductive Progress where
  | suspended
  | completed
deriving DecidableEq, Repr, Inhabited

namespace Instance

/-- A new instance, before the first statement of its body. It sees no variables but its own. -/
def create (id : Identity) (c : Coroutine) : Instance :=
  { id, coroutine := c.name, life := .fresh, machine := some (.start c.body .empty .coroutine),
    resumes := 0 }

/-- Whether the instance may be resumed. -/
def isResumable (i : Instance) : Bool :=
  match i.life with
  | .fresh | .suspended => true
  | .running | .completed => false

end Instance

/-- A place of the table: an instance at rest, or the mark of one that is being resumed. -/
inductive Slot where
  | parked (i : Instance)
  | running (coroutine : String)
deriving Inhabited

/-- The instances of a program, by name. -/
@[ext] structure Table where
  slots : Assoc Slot
  sorted : slots.Sorted

namespace Table

/-- A table without instances. -/
def empty : Table := ⟨[], .nil⟩

instance : Inhabited Table := ⟨empty⟩

/-- The slot of a name. -/
def slot? (t : Table) (name : String) : Option Slot := t.slots.get? name

/-- Puts a slot under a name, in place of the one that was there. -/
def setSlot (t : Table) (name : String) (s : Slot) : Table :=
  ⟨t.slots.put name s, t.sorted.put name s⟩

/-- Takes the slot of a name away, and gives it together with the table that is left. -/
def removeSlot (t : Table) (name : String) : Option Slot × Table :=
  (t.slot? name, ⟨t.slots.erase name, t.sorted.erase name⟩)

/-- Whether a name may be given to a new instance: it is unused, or its instance has completed. -/
def isFree (t : Table) (name : String) : Bool :=
  match t.slot? name with
  | none => true
  | some (.parked i) => i.life = .completed
  | some (.running _) => false

/-- Adds an instance. -/
def insert (t : Table) (name : String) (i : Instance) : Except Fault Unit × Table :=
  if t.isFree name then (.ok (), t.setSlot name (.parked i))
  else (.error (.duplicateInstance name), t)

/-- Takes an instance out, to be resumed. Its slot is taken away, and then there is one again with
the mark of an instance that runs. -/
def checkout (t : Table) (name : String) : Except Fault Instance × Table :=
  match t.removeSlot name with
  | (none, rest) => (.error (.undefinedInstance name), rest)
  | (some (.running coroutine), rest) =>
    (.error (.alreadyRunning name coroutine), rest.setSlot name (.running coroutine))
  | (some (.parked i), rest) => (.ok i, rest.setSlot name (.running i.coroutine))

/-- Puts an instance back. -/
def checkin (t : Table) (name : String) (i : Instance) : Table :=
  t.setSlot name (.parked i)

/-- The stage of life of the instance of a name. -/
def life? (t : Table) (name : String) : Option Life :=
  (t.slot? name).map fun
    | .parked i => i.life
    | .running _ => .running

/-- The instance of a name, unless it is out. -/
def get? (t : Table) (name : String) : Option Instance :=
  match t.slot? name with
  | some (.parked i) => some i
  | _ => none

end Table

end CoLang
