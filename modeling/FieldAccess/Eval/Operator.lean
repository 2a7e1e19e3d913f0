import FieldAccess.Eval.Fault

namespace FieldAccess.Value

-- Division of the least integer by -1, or a remainder of it, overflows.
def divides (a b : Int64) (quotient : Int64) : Except ExecFault Value :=
  if b = 0 then throw .divisionByZero
  else if a = Int64.minValue && b = -1 then throw .overflow
  else pure (.int quotient)

def intOperation (op : BinaryOp) (a b : Int64) : Except ExecFault Value :=
  match op with
  | .add => pure (.int (a + b))
  | .sub => pure (.int (a - b))
  | .mul => pure (.int (a * b))
  | .div => divides a b (a / b)
  | .mod => divides a b (a % b)
  | .bitAnd => pure (.int (a &&& b))
  | .bitOr => pure (.int (a ||| b))
  | .bitXor => pure (.int (a ^^^ b))
  | .bitClear => pure (.int (a &&& ~~~b))
  | .shiftLeft => pure (.int (a <<< b))
  | .shiftRight => pure (.int (a >>> b))
  | .lt => pure (.bool (a < b))
  | .le => pure (.bool (a ≤ b))
  | .gt => pure (.bool (b < a))
  | .ge => pure (.bool (b ≤ a))
  | _ => throw (.type (.operator op "int"))

def floatOperation (op : BinaryOp) (a b : Float) : Except ExecFault Value :=
  match op with
  | .add => pure (.float (a + b))
  | .sub => pure (.float (a - b))
  | .mul => pure (.float (a * b))
  | .div => pure (.float (a / b))
  | .lt => pure (.bool (a < b))
  | .le => pure (.bool (a ≤ b))
  | .gt => pure (.bool (b < a))
  | .ge => pure (.bool (b ≤ a))
  | _ => throw (.type (.operator op "float"))

def strOperation (op : BinaryOp) (a b : String) : Except ExecFault Value :=
  match op with
  | .add => pure (.str (a ++ b))
  | .lt => pure (.bool (a < b))
  | .le => pure (.bool (!decide (b < a)))
  | .gt => pure (.bool (b < a))
  | .ge => pure (.bool (!decide (a < b)))
  | _ => throw (.type (.operator op "string"))

-- Sums, differences and products wrap around, and a shift takes the lowest six bits of its count.
-- An integer beside a float counts as a float.
def binary (op : BinaryOp) (left right : Value) : Except ExecFault Value :=
  match op with
  | .eq => pure (.bool (left.equal right))
  | .ne => pure (.bool (!left.equal right))
  | op =>
    match left, right with
    | int a, int b => intOperation op a b
    | float a, float b => floatOperation op a b
    | int a, float b => floatOperation op a.toFloat b
    | float a, int b => floatOperation op a b.toFloat
    | str a, str b => strOperation op a b
    | left, right => throw (.type (.operands op left right))

-- Pointers are transparent: an address or what it points to is the value itself.
def unary (op : UnaryOp) (operand : Value) : Except ExecFault Value :=
  match op, operand with
  | .plus, v | .addressOf, v | .deref, v => pure v
  | .negate, int a => if a = Int64.minValue then throw .overflow else pure (.int (-a))
  | .negate, float a => pure (.float (-a))
  | .not, bool a => pure (.bool !a)
  | .complement, int a => pure (.int (~~~a))
  | op, v => throw (.type (.operand op v))

-- Converts to a basic type. A number becomes a float for a float type and an integer for any other;
-- a text or a truth value only stays what it is.
def convert (type : String) (v : Value) : Except ExecFault Value :=
  if type = "float32" || type = "float64" then
    match v with
    | int a => pure (.float a.toFloat)
    | float a => pure (.float a)
    | v => throw (.type (.conversion type v))
  else
    match v with
    | int a => pure (.int a)
    | float a => pure (.int a.toInt64)
    | str a => if type = "string" then pure (.str a) else throw (.type (.conversion type v))
    | bool a => if type = "bool" then pure (.bool a) else throw (.type (.conversion type v))
    | v => throw (.type (.conversion type v))

def position? (index : Int64) (length : Nat) : Option Nat :=
  if 0 ≤ index && index.toInt.toNat < length then some index.toInt.toNat else none

end FieldAccess.Value
