import CoLang.Syntax
/-!
# Frames

While a body runs, every statement and block that has begun and not yet ended has a frame. A frame
keeps how far its construct has come, how many scopes were open when it began, and the syntax it
runs.
-/

namespace CoLang

/-- How far a block has come: before its scope is opened, or between statements. -/
inductive BlockPhase where
  | enter
  | next
deriving DecidableEq, Repr, Inhabited

/-- How far a conditional has come: before its condition, or with its branch chosen. -/
inductive IfPhase where
  | evalCond
  | dispatch
deriving DecidableEq, Repr, Inhabited

/-- How far a loop has come in its current round: before the condition, before the body, or after
the body. -/
inductive WhilePhase where
  | check
  | runBody
  | postBody
deriving DecidableEq, Repr, Inhabited

/-- What a frame runs, with its progress. -/
inductive FrameKind where
  | block (phase : BlockPhase) (index : Nat)
  | ifElse (phase : IfPhase) (takeThen : Bool)
  /-- The rounds of a loop are counted in a word, which wraps around. -/
  | whileLoop (phase : WhilePhase) (iteration : UInt64)
  | varDecl
  | assign
  | expr
  | ret
  | brk
  | cont
  | yield
  | create
  | resume
deriving DecidableEq, Repr, Inhabited

/-- The syntax that a frame runs. -/
inductive FrameNode where
  | block (body : Block)
  | stmt (s : Stmt)
deriving Inhabited

/-- One entry of the stack of a running body. -/
structure Frame where
  kind : FrameKind
  /-- The number of scopes that stay open when the frame ends. -/
  scopeBase : Nat
  node : FrameNode
deriving Inhabited

namespace FrameKind

/-- The progress with which a statement begins. -/
def ofStmt : Stmt → FrameKind
  | .varDecl .. => .varDecl
  | .assign .. => .assign
  | .expr _ => .expr
  | .ifElse .. => .ifElse .evalCond false
  | .whileLoop .. => .whileLoop .check 0
  | .ret _ => .ret
  | .brk => .brk
  | .cont => .cont
  | .yield => .yield
  | .create .. => .create
  | .resume _ => .resume

/-- A frame's progress spelled out for messages. -/
def describe : FrameKind → String
  | .block phase index =>
    let phase := match phase with
      | .enter => "Enter"
      | .next => "Next"
    "Block \x7b phase: " ++ phase ++ ", idx: " ++ toString index ++ " \x7d"
  | .ifElse phase takeThen =>
    let phase := match phase with
      | .evalCond => "EvalCond"
      | .dispatch => "Dispatch"
    let takeThen := if takeThen then "true" else "false"
    "If \x7b phase: " ++ phase ++ ", branch_then: " ++ takeThen ++ " \x7d"
  | .whileLoop phase iteration =>
    let phase := match phase with
      | .check => "Check"
      | .runBody => "RunBody"
      | .postBody => "PostBody"
    "While \x7b phase: " ++ phase ++ ", iteration: " ++ toString iteration.toNat ++ " \x7d"
  | .varDecl => "VarDecl"
  | .assign => "Assign"
  | .expr => "Expr"
  | .ret => "Return"
  | .brk => "Break"
  | .cont => "Continue"
  | .yield => "Yield"
  | .create => "Create"
  | .resume => "Resume"

end FrameKind

end CoLang
