import CoLang.Frame
/-!
# Faults

Everything that can go wrong while a program is set up or run, as causes. A fault is reported as a
kind and a message, and both are functions of the cause.
-/

namespace CoLang

/-- The kinds that faults are reported under. -/
inductive FaultKind where
  | name
  | duplicateName
  | type
  | divisionByZero
  | arity
  | missingReturn
  | controlFlow
  | illegalState
  | recursionLimit
  | output
deriving DecidableEq, Repr, Inhabited

/-- A kind as reports spell it. -/
def FaultKind.label : FaultKind → String
  | .name => "NameError"
  | .duplicateName => "DuplicateNameError"
  | .type => "TypeError"
  | .divisionByZero => "DivisionByZero"
  | .arity => "ArityError"
  | .missingReturn => "MissingReturnError"
  | .controlFlow => "ControlFlowError"
  | .illegalState => "IllegalStateError"
  | .recursionLimit => "RecursionLimit"
  | .output => "OutputError"

/-- The life of a coroutine instance. -/
inductive Life where
  /-- Created and never resumed. -/
  | fresh
  /-- Stopped at a yield. -/
  | suspended
  /-- In the middle of a resume. -/
  | running
  /-- Ended, by its last statement or by a fault. -/
  | completed
deriving DecidableEq, Repr, Inhabited

/-- A stage of life as messages spell it. -/
def Life.label : Life → String
  | .fresh => "fresh"
  | .suspended => "suspended"
  | .running => "running"
  | .completed => "completed"

/-- The cause of a failure. -/
inductive Fault where
  -- Variables
  | storeMismatch (name : String) (ty got : Ty)
  | noScope (name : String)
  | alreadyDefined (name : String)
  | undefinedVariable (name : String)
  | uninitialized (name : String)
  | assignUndefined (name : String)
  -- Declarations
  | redeclaredBuiltin (name : String)
  | declaredTwice (name : String)
  | repeatedParameter (param function : String)
  | undefinedFunction (name : String)
  | calledCoroutine (name : String)
  -- Operators and conditions
  | unaryMismatch (op : UnaryOp) (got : Ty)
  | binaryMismatch (op : BinaryOp) (left right : Ty)
  | expectedBool (op : LogicOp) (got : Ty)
  | conditionNotBool (construct : String) (got : Ty)
  | dividedByZero (dividend : Int64)
  | noValue (name : String)
  -- Calls
  | wrongArity (function : String) (expected got : Nat)
  | argumentMismatch (param function : String) (ty got : Ty)
  | tooDeep (function : String) (limit : Nat)
  | returnMismatch (function : String) (ty got : Ty)
  | missingReturn (function : String) (ty : Ty)
  -- Control flow
  | breakOutsideLoop
  | continueOutsideLoop
  | yieldOutsideCoroutine
  | frameMismatch (kind : FrameKind)
  -- Coroutine instances
  | undefinedCoroutine (name : String)
  | undefinedInstance (name : String)
  | duplicateInstance (name : String)
  | alreadyRunning (instanceName coroutine : String)
  | capturedRunning (instanceName : String)
  | notResumable (coroutine : String) (life : Life)
  | noMachine (coroutine : String)
  -- Output
  | printFailed (reason : String)
deriving DecidableEq, Repr, Inhabited

namespace Fault

/-- The kind that a fault is reported under. -/
def kind : Fault → FaultKind
  | .storeMismatch .. => .type
  | .noScope _ => .name
  | .alreadyDefined _ => .duplicateName
  | .undefinedVariable _ => .name
  | .uninitialized _ => .name
  | .assignUndefined _ => .name
  | .redeclaredBuiltin _ => .duplicateName
  | .declaredTwice _ => .duplicateName
  | .repeatedParameter .. => .duplicateName
  | .undefinedFunction _ => .name
  | .calledCoroutine _ => .type
  | .unaryMismatch .. => .type
  | .binaryMismatch .. => .type
  | .expectedBool .. => .type
  | .conditionNotBool .. => .type
  | .dividedByZero _ => .divisionByZero
  | .noValue _ => .type
  | .wrongArity .. => .arity
  | .argumentMismatch .. => .type
  | .tooDeep .. => .recursionLimit
  | .returnMismatch .. => .type
  | .missingReturn .. => .missingReturn
  | .breakOutsideLoop => .controlFlow
  | .continueOutsideLoop => .controlFlow
  | .yieldOutsideCoroutine => .controlFlow
  | .frameMismatch _ => .controlFlow
  | .undefinedCoroutine _ => .name
  | .undefinedInstance _ => .name
  | .duplicateInstance _ => .duplicateName
  | .alreadyRunning .. => .illegalState
  | .capturedRunning _ => .illegalState
  | .notResumable .. => .illegalState
  | .noMachine _ => .illegalState
  | .printFailed _ => .output

/-- The message of a fault. -/
def message : Fault → String
  | .storeMismatch name ty got =>
    s!"cannot store {got.name} value in '{name}' of type {ty.name}"
  | .noScope name => s!"no scope to define '{name}' in"
  | .alreadyDefined name => s!"variable '{name}' is already defined in this scope"
  | .undefinedVariable name => s!"undefined variable '{name}'"
  | .uninitialized name => s!"variable '{name}' used before initialization"
  | .assignUndefined name => s!"cannot assign to undefined variable '{name}'"
  | .redeclaredBuiltin name => s!"'{name}' is a built-in and cannot be redeclared"
  | .declaredTwice name => s!"'{name}' is declared more than once"
  | .repeatedParameter param function =>
    s!"parameter '{param}' appears twice in function '{function}'"
  | .undefinedFunction name => s!"undefined function '{name}'"
  | .calledCoroutine name =>
    s!"coroutine '{name}' cannot be called; create an instance and resume it"
  | .unaryMismatch op got => s!"operator '{op.symbol}' cannot be applied to {got.name}"
  | .binaryMismatch op left right =>
    s!"operator '{op.symbol}' cannot be applied to {left.name} and {right.name}"
  | .expectedBool op got =>
    s!"operator '{(BinaryOp.logic op).symbol}' expects bool operands, got {got.name}"
  | .conditionNotBool construct got => s!"{construct} condition must be bool, got {got.name}"
  | .dividedByZero dividend => s!"integer division of {dividend.toInt} by zero"
  | .noValue name => s!"'{name}' does not produce a value"
  | .wrongArity function expected got =>
    s!"function '{function}' expects {expected} argument(s), got {got}"
  | .argumentMismatch param function ty got =>
    s!"argument '{param}' of '{function}' expects {ty.name}, got {got.name}"
  | .tooDeep function limit =>
    s!"call to '{function}' exceeds the maximum call depth of {limit}"
  | .returnMismatch function ty got =>
    s!"function '{function}' must return {ty.name}, got {got.name}"
  | .missingReturn function ty =>
    s!"function '{function}' declares return type {ty.name} but finished without a value"
  | .breakOutsideLoop => "break used outside of a while loop"
  | .continueOutsideLoop => "continue used outside of a while loop"
  | .yieldOutsideCoroutine => "yield used outside of a coroutine body"
  | .frameMismatch kind => s!"frame {kind.describe} does not match its node"
  | .undefinedCoroutine name => s!"undefined coroutine '{name}'"
  | .undefinedInstance name => s!"undefined coroutine instance '{name}'"
  | .duplicateInstance name => s!"coroutine instance '{name}' already exists"
  | .alreadyRunning instanceName coroutine =>
    s!"coroutine instance '{instanceName}' of '{coroutine}' is already running"
  | .capturedRunning instanceName =>
    s!"coroutine instance '{instanceName}' was captured while running"
  | .notResumable coroutine life =>
    s!"coroutine instance of '{coroutine}' is {life.label} and cannot be resumed"
  | .noMachine coroutine => s!"coroutine instance of '{coroutine}' has no execution state"
  | .printFailed reason => s!"print failed: {reason}"

end Fault

/-- What is told about a failure: its kind and its message. -/
structure Report where
  kind : FaultKind
  message : String
deriving DecidableEq, Repr, Inhabited

namespace Report

/-- A report on one line, as a log shows it. -/
def oneLine (r : Report) : String :=
  r.kind.label ++ ": " ++ r.message

/-- A report as the command line shows it. -/
def rendered (r : Report) : String :=
  "error[" ++ r.kind.label ++ "]: " ++ r.message

end Report

/-- The report of a fault. -/
def Fault.report (f : Fault) : Report :=
  ⟨f.kind, f.message⟩

end CoLang
