import CoLang.Instance
import CoLang.Wire.Syntax
/-!
# Machines and instances in JSON

A machine is written with its outermost frame and scope first. The identity of an instance is
written in a format that is left open.
-/

namespace CoLang

/-! ## Environments -/

namespace Binding

/-- A variable in JSON. -/
def encode (b : Binding) : Json :=
  .obj [("ty", b.ty.encode), ("value", Val.encode? b.value)]

/-- Reads a variable. -/
def decode : Wire.Decoder Binding :=
  fun s j => do
    let inside ← s.enter
    let f ← Wire.fields ["ty", "value"] j
    let ty ← f.required "ty" (Ty.decode inside)
    let value ← f.nullable "value" (Val.decode inside)
    return { ty, value }

end Binding

namespace Scope

/-- A scope in JSON. -/
def encode (s : Scope) : Json :=
  .obj (s.bindings.map fun entry => (entry.1, entry.2.encode))

/-- Reads a scope. Of two variables of one name the later one counts. -/
def decode : Wire.Decoder Scope
  | s, .obj members => do
    let inside ← s.enter
    members.foldlM (fun (scope : Scope) m => (Binding.decode inside m.2).map (scope.set m.1)) .empty
  | _, _ => none

end Scope

namespace Env

/-- The scopes in JSON, the outermost first. -/
def encodeScopes (env : Env) : Json :=
  .arr (env.scopes.reverse.map Scope.encode)

/-- An environment in JSON. -/
def encode (env : Env) : Json :=
  .obj [("scopes", env.encodeScopes)]

/-- Reads an environment. -/
def decode : Wire.Decoder Env :=
  fun s j => do
    let inside ← s.enter
    let f ← Wire.fields ["scopes"] j
    let scopes ← f.required "scopes" (Wire.list Scope.decode inside)
    return ⟨scopes.reverse⟩

end Env

/-! ## Control and frames -/

namespace Control

/-- A pending jump in JSON. -/
def encode : Control → Json
  | .idle => .obj [("t", .str "None")]
  | .breaking => .obj [("t", .str "Break")]
  | .continuing => .obj [("t", .str "Continue")]
  | .returning v => .obj [("t", .str "Return"), ("v", Val.encode? v)]
  | .yielding => .obj [("t", .str "Yield")]

/-- Reads a pending jump. -/
def decode : Wire.Decoder Control :=
  Wire.pairOf [
    ("None", Wire.carryingNothing .idle),
    ("Break", Wire.carryingNothing .breaking),
    ("Continue", Wire.carryingNothing .continuing),
    ("Return", fun s content =>
      match content with
      | none => some (.returning none)
      | some j => (Wire.optional (Val.decode s) j).map .returning),
    ("Yield", Wire.carryingNothing .yielding)]

end Control

namespace FrameKind

/-- The members that a frame's progress is written as. -/
def encodeMembers : FrameKind → List (String × Json)
  | .block phase index =>
    let phase := match phase with
      | .enter => "Enter"
      | .next => "Next"
    [("t", .str "Block"), ("phase", .str phase), ("idx", .int index)]
  | .ifElse phase takeThen =>
    let phase := match phase with
      | .evalCond => "EvalCond"
      | .dispatch => "Dispatch"
    [("t", .str "If"), ("phase", .str phase), ("branch_then", .bool takeThen)]
  | .whileLoop phase iteration =>
    let phase := match phase with
      | .check => "Check"
      | .runBody => "RunBody"
      | .postBody => "PostBody"
    [("t", .str "While"), ("phase", .str phase), ("iteration", .int iteration.toNat)]
  | kind => [("t", .str kind.describe)]

/-- The kinds of frames. -/
def variants : List String :=
  ["Block", "If", "While", "VarDecl", "Assign", "Expr", "Return", "Break", "Continue", "Yield",
    "Create", "Resume"]

/-- Reads a frame's progress from members that were taken in as a whole. -/
def decodeMembers (room : Nat) (members : List (String × Json)) : Option FrameKind := do
  let inside : Wire.Source := ⟨room, true⟩
  let (tag, content) ← Wire.splitTag (.obj members)
  match ← Wire.variant variants inside tag with
  | "Block" =>
    let f ← Wire.fields ["phase", "idx"] content
    let phase ← f.required "phase"
      (Wire.choice [("Enter", BlockPhase.enter), ("Next", .next)] inside)
    let index ← f.required "idx" (Wire.count inside)
    return .block phase index
  | "If" =>
    let f ← Wire.fields ["phase", "branch_then"] content
    let phase ← f.required "phase"
      (Wire.choice [("EvalCond", IfPhase.evalCond), ("Dispatch", .dispatch)] inside)
    let takeThen ← f.required "branch_then" (Wire.boolean inside)
    return .ifElse phase takeThen
  | "While" =>
    let f ← Wire.fields ["phase", "iteration"] content
    let phase ← f.required "phase"
      (Wire.choice [("Check", WhilePhase.check), ("RunBody", .runBody), ("PostBody", .postBody)]
        inside)
    let iteration ← f.required "iteration" (Wire.count inside)
    return .whileLoop phase (.ofNat iteration)
  | "VarDecl" => return .varDecl
  | "Assign" => return .assign
  | "Expr" => return .expr
  | "Return" => return .ret
  | "Break" => return .brk
  | "Continue" => return .cont
  | "Yield" => return .yield
  | "Create" => return .create
  | "Resume" => return .resume
  | _ => none

end FrameKind

namespace FrameNode

/-- The syntax of a frame in JSON. -/
def encode : FrameNode → Json
  | .block b => .obj [("t", .str "Block"), ("v", Block.encode b)]
  | .stmt s => .obj [("t", .str "Stmt"), ("v", s.encode)]

/-- Reads the syntax of a frame. -/
def decode : Wire.Decoder FrameNode :=
  Wire.pairOf [
    ("Block", Wire.carrying fun s j => (Block.decode s j).map .block),
    ("Stmt", Wire.carrying fun s j => (Stmt.decode s j).map .stmt)]

end FrameNode

namespace Frame

/-- A frame's progress and scopes in JSON, without its syntax. -/
def encodeOutline (f : Frame) : Json :=
  .obj (f.kind.encodeMembers ++ [("scope_base", .int f.scopeBase)])

/-- A frame in JSON: the members of its progress and its own side by side. -/
def encode (f : Frame) : Json :=
  .obj (f.kind.encodeMembers ++ [("scope_base", .int f.scopeBase), ("node", f.node.encode)])

/-- The members that are a frame's own. -/
def ownNames : List String := ["scope_base", "node"]

/-- Reads a frame. Its other members are taken in as a whole. -/
def decode : Wire.Decoder Frame
  | s, .obj members => do
    let inside ← s.enter
    let f ← Wire.fields ownNames (.obj members)
    let others := members.filter fun m => !ownNames.contains m.1
    if others.all fun m => (inside.takeIn m.2).isSome then
      let kind ← FrameKind.decodeMembers inside.room others
      let scopeBase ← f.required "scope_base" (Wire.count inside)
      let node ← f.required "node" (FrameNode.decode inside)
      return { kind, scopeBase, node }
    else none
  | _, _ => none

end Frame

/-! ## Machines -/

namespace BodyKind

/-- The kinds of bodies by name. -/
def names : Assoc BodyKind :=
  [("Main", .main), ("Function", .function), ("Coroutine", .coroutine)]

/-- The name of a kind of body. -/
def tag : BodyKind → String
  | .main => "Main"
  | .function => "Function"
  | .coroutine => "Coroutine"

end BodyKind

namespace Machine

/-- A machine in JSON. -/
def encode (m : Machine) : Json :=
  .obj [("frames", .arr (m.frames.reverse.map Frame.encode)), ("env", m.env.encode),
    ("control", m.control.encode), ("body", .str m.body.tag)]

/-- Reads a machine. -/
def decode : Wire.Decoder Machine :=
  fun s j => do
    let inside ← s.enter
    let f ← Wire.fields ["frames", "env", "control", "body"] j
    let frames ← f.required "frames" (Wire.list Frame.decode inside)
    let env ← f.required "env" (Env.decode inside)
    let control ← f.required "control" (Control.decode inside)
    let body ← f.required "body" (Wire.choice BodyKind.names inside)
    return { frames := frames.reverse, env, control, body }

end Machine

/-! ## Instances -/

namespace Life

/-- The stages of life by name. -/
def names : Assoc Life :=
  [("fresh", .fresh), ("suspended", .suspended), ("running", .running), ("completed", .completed)]

end Life

namespace Instance

/-- An instance in JSON. -/
def encode (ids : Identity.Format) (i : Instance) : Json :=
  .obj [("id", .str (ids.write i.id)), ("coroutine", .str i.coroutine),
    ("state", .str i.life.label), ("vm", (i.machine.map Machine.encode).getD .null),
    ("resumes", .int i.resumes.toNat)]

/-- Reads an instance. -/
def decode (ids : Identity.Format) : Wire.Decoder Instance :=
  fun s j => do
    let inside ← s.enter
    let f ← Wire.fields ["id", "coroutine", "state", "vm", "resumes"] j
    let id ← f.required "id" fun j => (Wire.text inside j).bind ids.read
    let coroutine ← f.required "coroutine" (Wire.text inside)
    let life ← f.required "state" (Wire.choice Life.names inside)
    let machine ← f.nullable "vm" (Machine.decode inside)
    let resumes ← f.required "resumes" (Wire.count inside)
    return { id, coroutine, life, machine, resumes := .ofNat resumes }

end Instance

end CoLang
