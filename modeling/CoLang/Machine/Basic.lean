import CoLang.Env
/-!
# Machines

A machine runs one body: the main body, one function call or one coroutine instance. It is plain
data, so a machine that stopped at a yield can be kept, written down and taken up again.
-/

namespace CoLang

/-- What a body is about to do apart from going on: leave a loop, start its next round, return, or
hand back to whoever resumed it. -/
inductive Control where
  | idle
  | breaking
  | continuing
  | returning (value : Option Val)
  | yielding
deriving Inhabited

/-- Whose body a machine runs. Only coroutines may yield. -/
inductive BodyKind where
  | main
  | function
  | coroutine
deriving DecidableEq, Repr, Inhabited

/-- The state of a running body. -/
structure Machine where
  /-- The frames that have begun and not ended, the innermost first. -/
  frames : List Frame
  env : Env
  control : Control
  body : BodyKind
deriving Inhabited

/-- How a step, or a run of steps, came out. -/
inductive Verdict where
  /-- There is more to do. -/
  | more
  /-- The body has ended or stopped at a yield. -/
  | done
  | fault (f : Fault)
  /-- The step, or one of the run, could not be finished. -/
  | outOfFuel
deriving DecidableEq, Repr, Inhabited

namespace Machine

/-- A machine before the first statement of a body. The body runs in the innermost scope of `env`,
which holds the parameters of a call. -/
def start (body : Block) (env : Env) (kind : BodyKind) : Machine :=
  { frames := [⟨.block .next 0, env.depth, .block body⟩], env, control := .idle, body := kind }

/-- Whether the machine stopped at a yield. -/
def isSuspended (m : Machine) : Bool :=
  match m.control with
  | .yielding => true
  | _ => false

/-- Clears a pending yield, so that the body goes on behind it. -/
def clearYield (m : Machine) : Machine :=
  if m.isSuspended then { m with control := .idle } else m

/-- Begins a statement. -/
def pushStmt (m : Machine) (s : Stmt) : Machine :=
  { m with frames := ⟨.ofStmt s, m.env.depth, .stmt s⟩ :: m.frames }

/-- Begins a nested block, which opens a scope of its own. -/
def pushBlock (m : Machine) (b : Block) : Machine :=
  { m with frames := ⟨.block .enter 0, m.env.depth, .block b⟩ :: m.frames }

/-- Drops frames, and the scopes they opened, until a loop catches a `break` or `continue`. The loop
that catches a `break` ends and the one that catches a `continue` goes to its next round. A return
is caught by nothing. -/
def unwindFrames (control : Control) : List Frame → Env → List Frame × Env × Control
  | [], env => ([], env, control)
  | frame :: rest, env =>
    let env := env.truncate frame.scopeBase
    match frame.kind, control with
    | .whileLoop .., .breaking => (rest, env, .idle)
    | .whileLoop _ iteration, .continuing =>
      ({ frame with kind := .whileLoop .check (iteration + 1) } :: rest, env, .idle)
    | _, _ => unwindFrames control rest env

/-- The machine after its pending `break`, `continue` or return has been carried as far as it goes.
-/
def unwind (m : Machine) : Verdict × Machine :=
  let (frames, env, control) := unwindFrames m.control m.frames m.env
  let m := { m with frames, env, control }
  match control with
  | .idle => (.more, m)
  | .breaking => (.fault .breakOutsideLoop, m)
  | .continuing => (.fault .continueOutsideLoop, m)
  | .returning _ | .yielding => (.done, m)

end Machine

end CoLang
