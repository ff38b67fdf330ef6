import CoLang.Expr
/-!
# Steps

One step takes the innermost frame one phase further. Statements without parts are done in a single
step. A step that fails leaves its frame on the stack.
-/

namespace CoLang

/-- The state after a step or a run: how it came out, the machine and the world. -/
structure Stepped where
  verdict : Verdict
  machine : Machine
  world : World
deriving Inhabited

/-- Does a statement that has no parts: gives the environment behind it and what the body is to do
next. A statement with parts is left to its frames. -/
def Stmt.perform (cx : Context) (sv : Services) (kind : BodyKind) (env : Env) :
    Stmt → Eval (Env × Control)
  | .varDecl name ty init doc => do
    let v ← Expr.eval? cx sv env init
    let (answer, env) := env.define name ty v
    Eval.ofExcept answer
    Eval.update fun w => w.record cx .declare name doc none
    return (env, .idle)
  | .assign name value => do
    let v ← value.eval cx sv env
    let (answer, env) := env.assign name v
    Eval.ofExcept answer
    return (env, .idle)
  | .expr e => do
    e.perform cx sv env
    return (env, .idle)
  | .ret value => do
    let v ← Expr.eval? cx sv env value
    return (env, .returning v)
  | .brk => pure (env, .breaking)
  | .cont => pure (env, .continuing)
  | .yield => if kind = .coroutine then pure (env, .yielding) else .throw .yieldOutsideCoroutine
  | .create name coroutine => do
    Eval.change (World.create cx name coroutine)
    return (env, .idle)
  | .resume name => do
    let _ ← sv.resume name
    return (env, .idle)
  | .ifElse .. | .whileLoop .. => pure (env, .idle)

namespace Machine

/-- The machine with its innermost frame at another point of its progress. -/
def withTop (m : Machine) (frame : Frame) (rest : List Frame) (kind : FrameKind) : Machine :=
  { m with frames := { frame with kind } :: rest }

/-- The machine with its innermost frame ended and the scopes above it closed. -/
def leave (m : Machine) (frame : Frame) (rest : List Frame) : Machine :=
  { m with frames := rest, env := m.env.truncate frame.scopeBase }

/-- Goes on with the value of a computation, or stays as it is when there is none. -/
@[inline] def andThen {α : Type} (m : Machine) (x : Outcome α) (next : α → Verdict × Machine) :
    Stepped :=
  match x.ending with
  | .value a =>
    let (verdict, machine) := next a
    ⟨verdict, machine, x.world⟩
  | .fault f => ⟨.fault f, m, x.world⟩
  | .outOfFuel => ⟨.outOfFuel, m, x.world⟩

/-- A step of a block. -/
def stepBlock (m : Machine) (frame : Frame) (rest : List Frame) (body : Block) :
    BlockPhase → Nat → Machine
  | .enter, index => { m.withTop frame rest (.block .next index) with env := m.env.push }
  | .next, index =>
    match body[index]? with
    | none => m.leave frame rest
    | some s => (m.withTop frame rest (.block .next (index + 1))).pushStmt s

/-- A step of a conditional. The chosen branch takes the place of its frame. -/
def stepIf (cx : Context) (sv : Services) (m : Machine) (w : World) (frame : Frame)
    (rest : List Frame) (cond : Expr) (thenBody : Block) (elseBody : Option Block) :
    IfPhase → Bool → Stepped
  | .evalCond, _ =>
    m.andThen (cond.evalCondition cx sv m.env "if" w) fun taken =>
      (.more, m.withTop frame rest (.ifElse .dispatch taken))
  | .dispatch, takeThen =>
    let m := { m with frames := rest }
    let m :=
      if takeThen then m.pushBlock thenBody
      else
        match elseBody with
        | some b => m.pushBlock b
        | none => m
    ⟨.more, m, w⟩

/-- A step of a loop. -/
def stepWhile (cx : Context) (sv : Services) (m : Machine) (w : World) (frame : Frame)
    (rest : List Frame) (cond : Expr) (body : Block) : WhilePhase → UInt64 → Stepped
  | .check, iteration =>
    m.andThen (cond.evalCondition cx sv m.env "while" w) fun again =>
      if again then (.more, m.withTop frame rest (.whileLoop .runBody iteration))
      else (.more, m.leave frame rest)
  | .runBody, iteration =>
    ⟨.more, (m.withTop frame rest (.whileLoop .postBody iteration)).pushBlock body, w⟩
  | .postBody, iteration =>
    ⟨.more, m.withTop frame rest (.whileLoop .check (iteration + 1)), w⟩

/-- The step of a statement without parts. -/
def stepSimple (cx : Context) (sv : Services) (m : Machine) (w : World) (rest : List Frame)
    (s : Stmt) : Stepped :=
  m.andThen (s.perform cx sv m.body m.env w) fun (env, control) =>
    let m := { m with frames := rest, env, control }
    (if m.isSuspended then .done else .more, m)

/-- The step of a frame. The progress it keeps must fit the syntax it runs. -/
def stepFrame (cx : Context) (sv : Services) (m : Machine) (w : World) (frame : Frame)
    (rest : List Frame) : Stepped :=
  let mismatch := ⟨.fault (.frameMismatch frame.kind), m, w⟩
  match frame.node with
  | .block body =>
    match frame.kind with
    | .block phase index => ⟨.more, m.stepBlock frame rest body phase index, w⟩
    | _ => mismatch
  | .stmt (.ifElse cond thenBody elseBody) =>
    match frame.kind with
    | .ifElse phase takeThen => m.stepIf cx sv w frame rest cond thenBody elseBody phase takeThen
    | _ => mismatch
  | .stmt (.whileLoop cond body) =>
    match frame.kind with
    | .whileLoop phase iteration => m.stepWhile cx sv w frame rest cond body phase iteration
    | _ => mismatch
  | .stmt s => if frame.kind = .ofStmt s then m.stepSimple cx sv w rest s else mismatch

/-- One step of a machine. -/
def step (cx : Context) (sv : Services) (m : Machine) (w : World) : Stepped :=
  match m.control with
  | .yielding => ⟨.done, m, w⟩
  | .idle =>
    match m.frames with
    | [] => ⟨.done, m, w⟩
    | frame :: rest => m.stepFrame cx sv w frame rest
  | _ =>
    let (verdict, machine) := m.unwind
    ⟨verdict, machine, w⟩

/-- Steps until the body ends, stops at a yield or fails, for at most `fuel` steps. -/
def run (cx : Context) (sv : Services) : Nat → Machine → World → Stepped
  | 0, m, w => ⟨.outOfFuel, m, w⟩
  | fuel + 1, m, w =>
    let r := m.step cx sv w
    match r.verdict with
    | .more => run cx sv fuel r.machine r.world
    | _ => r

end Machine

end CoLang
