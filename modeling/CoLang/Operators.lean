import CoLang.Fault
/-!
# Operators on values

Integers wrap around at 64 bits, and their division goes toward zero. Integers and floats never mix,
and a comparison needs two values of one type.
-/

namespace CoLang

/-- The value of an operator at its operand. -/
def UnaryOp.apply : UnaryOp → Val → Except Fault Val
  | .not, .bool b => .ok (.bool (!b))
  | .neg, .int n => .ok (.int (-n))
  | .neg, .float x => .ok (.float (-x))
  | .plus, .int n => .ok (.int n)
  | .plus, .float x => .ok (.float x)
  | op, v => .error (.unaryMismatch op v.ty)

/-- Arithmetic on integers. Only division can fail. -/
def ArithOp.onInt : ArithOp → Int64 → Int64 → Except Fault Int64
  | .add, a, b => .ok (a + b)
  | .sub, a, b => .ok (a - b)
  | .mul, a, b => .ok (a * b)
  | .div, a, b => if b = 0 then .error (.dividedByZero a) else .ok (a / b)

/-- Arithmetic on floats, which never fails. -/
def ArithOp.onFloat : ArithOp → Float → Float → Float
  | .add, a, b => a + b
  | .sub, a, b => a - b
  | .mul, a, b => a * b
  | .div, a, b => a / b

/-- What an operator makes of the answer to "are they equal?". -/
def EqualityOp.holds : EqualityOp → Bool → Bool
  | .eq, same => same
  | .ne, same => !same

/-- A comparison of two integers. -/
def OrderOp.onInt : OrderOp → Int64 → Int64 → Bool
  | .lt, a, b => a < b
  | .le, a, b => a ≤ b
  | .gt, a, b => b < a
  | .ge, a, b => b ≤ a

/-- A comparison of two floats. NaN is neither below nor above anything. -/
def OrderOp.onFloat : OrderOp → Float → Float → Bool
  | .lt, a, b => a < b
  | .le, a, b => a ≤ b
  | .gt, a, b => b < a
  | .ge, a, b => b ≤ a

/-- A logical operator at the truth of its operands. -/
def LogicOp.connect : LogicOp → Bool → Bool → Bool
  | .and, a, b => a && b
  | .or, a, b => a || b
  | .xor, a, b => a != b

/-- The truth of an operand of a logical operator. -/
def LogicOp.expectBool (op : LogicOp) : Val → Except Fault Bool
  | .bool b => .ok b
  | v => .error (.expectedBool op v.ty)

/-- Whether two values of one type are equal, `none` when their types differ. -/
def Val.same? : Val → Val → Option Bool
  | .int a, .int b => some (a == b)
  | .float a, .float b => some (a == b)
  | .str a, .str b => some (a == b)
  | .bool a, .bool b => some (a == b)
  | _, _ => none

/-- The value of an operator at both its operands. A logical operator checks the left one first. -/
def BinaryOp.apply : BinaryOp → Val → Val → Except Fault Val
  | .arith op, .int a, .int b => (op.onInt a b).map .int
  | .arith op, .float a, .float b => .ok (.float (op.onFloat a b))
  | .equality op, l, r =>
    match l.same? r with
    | some same => .ok (.bool (op.holds same))
    | none => .error (.binaryMismatch (.equality op) l.ty r.ty)
  | .order op, .int a, .int b => .ok (.bool (op.onInt a b))
  | .order op, .float a, .float b => .ok (.bool (op.onFloat a b))
  | .logic op, l, r => do
    let a ← op.expectBool l
    let b ← op.expectBool r
    return .bool (op.connect a b)
  | op, l, r => .error (.binaryMismatch op l.ty r.ty)

/-- The value of an operator where the left operand alone decides it: `and` is false at false, and
`or` is true at true. Neither takes anything but a truth value. -/
def BinaryOp.decided? : BinaryOp → Val → Except Fault (Option Val)
  | .logic .and, l => do
    let a ← LogicOp.and.expectBool l
    return if a then none else some (.bool false)
  | .logic .or, l => do
    let a ← LogicOp.or.expectBool l
    return if a then some (.bool true) else none
  | _, _ => .ok none

end CoLang
