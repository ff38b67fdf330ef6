import CoLang.Syntax
import CoLang.Wire.Value
/-!
# Programs in JSON

Expressions and statements are taken in as a whole, so nothing in them may be unreadable. The
declarations of a program are not: what is unknown in them is passed over.
-/

namespace CoLang

namespace BinaryOp

/-- The binary operators by name. -/
def names : Assoc BinaryOp :=
  [("Add", .arith .add), ("Sub", .arith .sub), ("Mul", .arith .mul), ("Div", .arith .div),
    ("Eq", .equality .eq), ("Ne", .equality .ne), ("Lt", .order .lt), ("Le", .order .le),
    ("Gt", .order .gt), ("Ge", .order .ge), ("And", .logic .and), ("Or", .logic .or),
    ("Xor", .logic .xor)]

/-- The name of an operator in JSON. -/
def tag : BinaryOp → String
  | .arith .add => "Add"
  | .arith .sub => "Sub"
  | .arith .mul => "Mul"
  | .arith .div => "Div"
  | .equality .eq => "Eq"
  | .equality .ne => "Ne"
  | .order .lt => "Lt"
  | .order .le => "Le"
  | .order .gt => "Gt"
  | .order .ge => "Ge"
  | .logic .and => "And"
  | .logic .or => "Or"
  | .logic .xor => "Xor"

end BinaryOp

namespace UnaryOp

/-- The unary operators by name. -/
def names : Assoc UnaryOp :=
  [("Neg", .neg), ("Plus", .plus), ("Not", .not)]

/-- The name of an operator in JSON. -/
def tag : UnaryOp → String
  | .neg => "Neg"
  | .plus => "Plus"
  | .not => "Not"

end UnaryOp

namespace Wire

/-- The items of a list. -/
def items? : Json → Option (List Json)
  | .arr items => some items
  | _ => none

end Wire

/-! ## Expressions -/

namespace Expr

mutual

/-- An expression in JSON. -/
def encode : Expr → Json
  | .lit v => .obj [("t", .str "Lit"), ("v", v.encode)]
  | .var name => .obj [("t", .str "Var"), ("name", .str name)]
  | .binary op left right =>
    .obj [("t", .str "Binary"), ("op", .str op.tag), ("left", encode left),
      ("right", encode right)]
  | .unary op operand =>
    .obj [("t", .str "Unary"), ("op", .str op.tag), ("operand", encode operand)]
  | .call name args =>
    .obj [("t", .str "Call"), ("name", .str name), ("args", .arr (encodeArgs args))]

/-- Arguments in JSON. -/
def encodeArgs : List Expr → List Json
  | [] => []
  | e :: rest => encode e :: encodeArgs rest

end

/-- An expression or `null`. -/
def encode? : Option Expr → Json
  | some e => e.encode
  | none => .null

/-- The kinds of expressions. -/
def variants : List String := ["Lit", "Var", "Binary", "Unary", "Call"]

/-- Reads the fields of an expression that was taken in as a whole, `room` levels deep. -/
def decodeWhole : Nat → Bool → Json → Option Expr
  | 0, _, _ => none
  | room + 1, whole, j => do
    let inside : Wire.Source := ⟨room, true⟩
    let (tag, content) ← Wire.splitTag j
    match ← Wire.variant variants ⟨room, whole⟩ tag with
    | "Lit" =>
      let f ← Wire.fields ["v"] content
      return .lit (← f.required "v" (Val.decode inside))
    | "Var" =>
      let f ← Wire.fields ["name"] content
      return .var (← f.required "name" (Wire.text inside))
    | "Binary" =>
      let f ← Wire.fields ["op", "left", "right"] content
      let op ← f.required "op" (Wire.choice BinaryOp.names inside)
      let left ← f.required "left" (decodeWhole room true)
      let right ← f.required "right" (decodeWhole room true)
      return .binary op left right
    | "Unary" =>
      let f ← Wire.fields ["op", "operand"] content
      let op ← f.required "op" (Wire.choice UnaryOp.names inside)
      let operand ← f.required "operand" (decodeWhole room true)
      return .unary op operand
    | "Call" =>
      let f ← Wire.fields ["name", "args"] content
      let name ← f.required "name" (Wire.text inside)
      let args ← f.withDefault "args" [] fun j =>
        match room with
        | 0 => none
        | room + 1 => do (← Wire.items? j).mapM (decodeWhole room true)
      return .call name args
    | _ => none

/-- Reads an expression. -/
def decode : Wire.Decoder Expr :=
  fun s j => do
    let _ ← s.takeIn j
    decodeWhole s.room s.whole j

end Expr

/-! ## Statements -/

namespace Doc

/-- A documentation comment or `null`. -/
def encode? : Option Doc → Json
  | some lines => .arr (lines.map .str)
  | none => .null

/-- Reads a documentation comment. -/
def decode : Wire.Decoder Doc := Wire.list Wire.text

end Doc

namespace Stmt

mutual

/-- A statement in JSON. -/
def encode : Stmt → Json
  | .varDecl name ty init doc =>
    .obj [("t", .str "VarDecl"), ("name", .str name), ("type", ty.encode),
      ("init", Expr.encode? init), ("doc", Doc.encode? doc)]
  | .assign name value =>
    .obj [("t", .str "Assign"), ("name", .str name), ("value", value.encode)]
  | .expr call => .obj [("t", .str "Expr"), ("call", call.encode)]
  | .ifElse cond thenBody elseBody =>
    .obj [("t", .str "If"), ("cond", cond.encode), ("then_b", .arr (encodeBlock thenBody)),
      ("else_b", encodeBlock? elseBody)]
  | .whileLoop cond body =>
    .obj [("t", .str "While"), ("cond", cond.encode), ("body", .arr (encodeBlock body))]
  | .ret value => .obj [("t", .str "Return"), ("value", Expr.encode? value)]
  | .brk => .obj [("t", .str "Break")]
  | .cont => .obj [("t", .str "Continue")]
  | .yield => .obj [("t", .str "Yield")]
  | .create name coroutine =>
    .obj [("t", .str "CreateCoroutine"), ("name", .str name), ("coroutine", .str coroutine)]
  | .resume name => .obj [("t", .str "Resume"), ("name", .str name)]

/-- The statements of a block in JSON. -/
def encodeBlock : List Stmt → List Json
  | [] => []
  | s :: rest => encode s :: encodeBlock rest

/-- A block or `null`. -/
def encodeBlock? : Option (List Stmt) → Json
  | some b => .arr (encodeBlock b)
  | none => .null

end

/-- The kinds of statements. -/
def variants : List String :=
  ["VarDecl", "Assign", "Expr", "If", "While", "Return", "Break", "Continue", "Yield",
    "CreateCoroutine", "Resume"]

/-- Reads the fields of a statement that was taken in as a whole, `room` levels deep. -/
def decodeWhole : Nat → Bool → Json → Option Stmt
  | 0, _, _ => none
  | room + 1, whole, j => do
    let inside : Wire.Source := ⟨room, true⟩
    let block (j : Json) : Option Block :=
      match room with
      | 0 => none
      | room + 1 => do (← Wire.items? j).mapM (decodeWhole room true)
    let (tag, content) ← Wire.splitTag j
    match ← Wire.variant variants ⟨room, whole⟩ tag with
    | "VarDecl" =>
      let f ← Wire.fields ["name", "type", "init", "doc"] content
      let name ← f.required "name" (Wire.text inside)
      let ty ← f.required "type" (Ty.decode inside)
      let init ← f.orNull "init" (Expr.decode inside)
      let doc ← f.orNull "doc" (Doc.decode inside)
      return .varDecl name ty init doc
    | "Assign" =>
      let f ← Wire.fields ["name", "value"] content
      let name ← f.required "name" (Wire.text inside)
      let value ← f.required "value" (Expr.decode inside)
      return .assign name value
    | "Expr" =>
      let f ← Wire.fields ["call"] content
      return .expr (← f.required "call" (Expr.decode inside))
    | "If" =>
      let f ← Wire.fields ["cond", "then_b", "else_b"] content
      let cond ← f.required "cond" (Expr.decode inside)
      let thenBody ← f.required "then_b" block
      let elseBody ← f.orNull "else_b" block
      return .ifElse cond thenBody elseBody
    | "While" =>
      let f ← Wire.fields ["cond", "body"] content
      let cond ← f.required "cond" (Expr.decode inside)
      let body ← f.required "body" block
      return .whileLoop cond body
    | "Return" =>
      let f ← Wire.fields ["value"] content
      return .ret (← f.orNull "value" (Expr.decode inside))
    | "Break" =>
      Wire.noFields content
      return .brk
    | "Continue" =>
      Wire.noFields content
      return .cont
    | "Yield" =>
      Wire.noFields content
      return .yield
    | "CreateCoroutine" =>
      let f ← Wire.fields ["name", "coroutine"] content
      let name ← f.required "name" (Wire.text inside)
      let coroutine ← f.required "coroutine" (Wire.text inside)
      return .create name coroutine
    | "Resume" =>
      let f ← Wire.fields ["name"] content
      return .resume (← f.required "name" (Wire.text inside))
    | _ => none

/-- Reads a statement. -/
def decode : Wire.Decoder Stmt :=
  fun s j => do
    let _ ← s.takeIn j
    decodeWhole s.room s.whole j

end Stmt

/-! ## Declarations -/

/-- A block in JSON. -/
def Block.encode (b : Block) : Json := .arr (Stmt.encodeBlock b)

/-- Reads a block. -/
def Block.decode : Wire.Decoder Block := Wire.list Stmt.decode

namespace Param

/-- A parameter in JSON. -/
def encode (p : Param) : Json :=
  .obj [("name", .str p.name), ("type", p.ty.encode)]

/-- Reads a parameter. -/
def decode : Wire.Decoder Param :=
  fun s j => do
    let inside ← s.enter
    let f ← Wire.fields ["name", "type"] j
    let name ← f.required "name" (Wire.text inside)
    let ty ← f.required "type" (Ty.decode inside)
    return { name, ty }

end Param

namespace Function

/-- A function in JSON. -/
def encode (f : Function) : Json :=
  .obj [("name", .str f.name), ("params", .arr (f.params.map Param.encode)),
    ("return_type", (f.returnTy.map Ty.encode).getD .null), ("body", Block.encode f.body),
    ("doc", Doc.encode? f.doc)]

/-- Reads a function. -/
def decode : Wire.Decoder Function :=
  fun s j => do
    let inside ← s.enter
    let f ← Wire.fields ["name", "params", "return_type", "body", "doc"] j
    let name ← f.required "name" (Wire.text inside)
    let params ← f.withDefault "params" [] (Wire.list Param.decode inside)
    let returnTy ← f.orNull "return_type" (Ty.decode inside)
    let body ← f.required "body" (Block.decode inside)
    let doc ← f.orNull "doc" (Doc.decode inside)
    return { name, params, returnTy, body, doc }

end Function

namespace Coroutine

/-- A coroutine in JSON. -/
def encode (c : Coroutine) : Json :=
  .obj [("name", .str c.name), ("body", Block.encode c.body), ("doc", Doc.encode? c.doc)]

/-- Reads a coroutine. -/
def decode : Wire.Decoder Coroutine :=
  fun s j => do
    let inside ← s.enter
    let f ← Wire.fields ["name", "body", "doc"] j
    let name ← f.required "name" (Wire.text inside)
    let body ← f.required "body" (Block.decode inside)
    let doc ← f.orNull "doc" (Doc.decode inside)
    return { name, body, doc }

end Coroutine

namespace Program

/-- A program in JSON. -/
def encode (p : Program) : Json :=
  .obj [("functions", .arr (p.functions.map Function.encode)),
    ("coroutines", .arr (p.coroutines.map Coroutine.encode)), ("main", Block.encode p.main)]

/-- Reads a program. All its parts may be missing. -/
def decode : Wire.Decoder Program :=
  fun s j => do
    let inside ← s.enter
    let f ← Wire.fields ["functions", "coroutines", "main"] j
    let functions ← f.withDefault "functions" [] (Wire.list Function.decode inside)
    let coroutines ← f.withDefault "coroutines" [] (Wire.list Coroutine.decode inside)
    let main ← f.withDefault "main" [] (Block.decode inside)
    return { functions, coroutines, main }

end Program

end CoLang
