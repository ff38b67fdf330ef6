import CoLang.Value
/-!
# Programs

The abstract syntax of the language. A program is a list of functions, a list of coroutines and the
statements of its main body. Declarations may carry a documentation comment, kept line by line.
-/

namespace CoLang

/-- The operators of arithmetic. -/
inductive ArithOp where
  | add | sub | mul | div
deriving DecidableEq, Repr, Inhabited

/-- The operators that tell two values of one type apart. -/
inductive EqualityOp where
  | eq | ne
deriving DecidableEq, Repr, Inhabited

/-- The operators that compare two numbers. -/
inductive OrderOp where
  | lt | le | gt | ge
deriving DecidableEq, Repr, Inhabited

/-- The operators on truth values. -/
inductive LogicOp where
  | and | or | xor
deriving DecidableEq, Repr, Inhabited

/-- The operators with two operands, by family. -/
inductive BinaryOp where
  | arith (op : ArithOp)
  | equality (op : EqualityOp)
  | order (op : OrderOp)
  | logic (op : LogicOp)
deriving DecidableEq, Repr, Inhabited

/-- An operator as messages spell it. -/
def BinaryOp.symbol : BinaryOp → String
  | .arith .add => "+"
  | .arith .sub => "-"
  | .arith .mul => "*"
  | .arith .div => "/"
  | .equality .eq => "=="
  | .equality .ne => "!="
  | .order .lt => "<"
  | .order .le => "<="
  | .order .gt => ">"
  | .order .ge => ">="
  | .logic .and => "and"
  | .logic .or => "or"
  | .logic .xor => "xor"

/-- The operators with one operand. -/
inductive UnaryOp where
  | neg | plus | not
deriving DecidableEq, Repr, Inhabited

/-- An operator as messages spell it. -/
def UnaryOp.symbol : UnaryOp → String
  | .neg => "-"
  | .plus => "+"
  | .not => "not"

/-- An expression. -/
inductive Expr where
  | lit (v : Val)
  | var (name : String)
  | binary (op : BinaryOp) (left right : Expr)
  | unary (op : UnaryOp) (operand : Expr)
  | call (name : String) (args : List Expr)
deriving Inhabited

/-- A documentation comment, line by line. -/
abbrev Doc := List String

/-- A statement. Blocks are lists of statements. -/
inductive Stmt where
  | varDecl (name : String) (ty : Ty) (init : Option Expr) (doc : Option Doc)
  | assign (name : String) (value : Expr)
  | expr (call : Expr)
  | ifElse (cond : Expr) (thenBody : List Stmt) (elseBody : Option (List Stmt))
  | whileLoop (cond : Expr) (body : List Stmt)
  | ret (value : Option Expr)
  | brk
  | cont
  | yield
  | create (name coroutine : String)
  | resume (name : String)
deriving Inhabited

/-- The statements of a body, in order. -/
abbrev Block := List Stmt

/-- A parameter of a function. -/
structure Param where
  name : String
  ty : Ty
deriving DecidableEq, Repr, Inhabited

/-- A function declaration. A function without a return type may still return a value. -/
structure Function where
  name : String
  params : List Param
  returnTy : Option Ty
  body : Block
  doc : Option Doc
deriving Inhabited

/-- A coroutine declaration. Coroutines take no parameters and are run through instances. -/
structure Coroutine where
  name : String
  body : Block
  doc : Option Doc
deriving Inhabited

/-- A whole program. -/
structure Program where
  functions : List Function
  coroutines : List Coroutine
  main : Block
deriving Inhabited

end CoLang
