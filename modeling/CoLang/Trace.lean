import CoLang.Doc
/-!
# The process trace

The steps of the marked process, in the order in which they happen.
-/

namespace CoLang

/-- What happened to a marked declaration. -/
inductive Action where
  | call
  | create
  | resume
  | declare
deriving DecidableEq, Repr, Inhabited

/-- An action as traces spell it. -/
def Action.label : Action → String
  | .call => "call"
  | .create => "create"
  | .resume => "resume"
  | .declare => "declare"

/-- One step of the process. -/
structure Event where
  /-- The number of events before this one. -/
  seq : Nat
  action : Action
  /-- The name of the declaration. -/
  name : String
  note : String
  /-- The instance that a coroutine's event is about. -/
  instanceName : Option String
deriving DecidableEq, Repr, Inhabited

end CoLang
