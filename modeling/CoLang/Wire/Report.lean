import CoLang.Fault
import CoLang.Trace
import CoLang.Json.Printer
import CoLang.Wire.Source
/-!
# Reports and traces in JSON
-/

namespace CoLang

/-- The kinds of faults by label. -/
def FaultKind.names : Assoc FaultKind :=
  [.name, .duplicateName, .type, .divisionByZero, .arity, .missingReturn, .controlFlow,
    .illegalState, .recursionLimit, .output].map fun kind => (kind.label, kind)

namespace Report

/-- A report in JSON. -/
def encode (r : Report) : Json :=
  .obj [("kind", .str r.kind.label), ("message", .str r.message)]

/-- Reads a report. -/
def decode : Wire.Decoder Report :=
  fun s j => do
    let inside ← s.enter
    let f ← Wire.fields ["kind", "message"] j
    let kind ← f.required "kind" (Wire.choice FaultKind.names inside)
    let message ← f.required "message" (Wire.text inside)
    return { kind, message }

end Report

/-- The actions by label. -/
def Action.names : Assoc Action :=
  [.call, .create, .resume, .declare].map fun action => (action.label, action)

namespace Event

/-- An event in JSON. Only events of coroutines name an instance. -/
def encode (e : Event) : Json :=
  let head :=
    [("seq", Json.int e.seq), ("action", .str e.action.label), ("name", .str e.name),
      ("note", .str e.note)]
  match e.instanceName with
  | some name => .obj (head ++ [("instance", .str name)])
  | none => .obj head

/-- Reads an event. -/
def decode : Wire.Decoder Event :=
  fun s j => do
    let inside ← s.enter
    let f ← Wire.fields ["seq", "action", "name", "note", "instance"] j
    let seq ← f.required "seq" (Wire.count inside)
    let action ← f.required "action" (Wire.choice Action.names inside)
    let name ← f.required "name" (Wire.text inside)
    let note ← f.required "note" (Wire.text inside)
    let instanceName ← f.orNull "instance" (Wire.text inside)
    return { seq, action, name, note, instanceName }

/-- Events in JSON. -/
def encodeAll (events : List Event) : Json :=
  .arr (events.map encode)

/-- A whole trace as a JSON text over several lines. -/
def traceText (num : Json.Numerals) (events : Array Event) : String :=
  (encodeAll events.toList).pretty num

end Event

end CoLang
