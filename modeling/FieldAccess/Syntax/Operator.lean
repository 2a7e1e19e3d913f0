
namespace FieldAccess

inductive BinaryOp where
  | add
  | sub
  | mul
  | div
  | mod
  | bitAnd
  | bitOr
  | bitXor
  | bitClear
  | shiftLeft
  | shiftRight
  | eq
  | ne
  | lt
  | le
  | gt
  | ge
  | and
  | or
deriving DecidableEq, Repr

namespace BinaryOp

def precedence : BinaryOp → Nat
  | mul | div | mod | shiftLeft | shiftRight | bitAnd | bitClear => 5
  | add | sub | bitOr | bitXor => 4
  | eq | ne | lt | le | gt | ge => 3
  | and => 2
  | or => 1

def isComparison (op : BinaryOp) : Bool :=
  op.precedence = 3

def isLogical : BinaryOp → Bool
  | and | or => true
  | _ => false

def isShift : BinaryOp → Bool
  | shiftLeft | shiftRight => true
  | _ => false

def isArithmetic (op : BinaryOp) : Bool :=
  !(op.isComparison || op.isLogical)

def render : BinaryOp → String
  | add => "+"
  | sub => "-"
  | mul => "*"
  | div => "/"
  | mod => "%"
  | bitAnd => "&"
  | bitOr => "|"
  | bitXor => "^"
  | bitClear => "&^"
  | shiftLeft => "<<"
  | shiftRight => ">>"
  | eq => "=="
  | ne => "!="
  | lt => "<"
  | le => "<="
  | gt => ">"
  | ge => ">="
  | and => "&&"
  | or => "||"

end BinaryOp

inductive UnaryOp where
  | plus
  | negate
  | not
  | complement
  | addressOf
  | deref
deriving DecidableEq, Repr

def UnaryOp.render : UnaryOp → String
  | plus => "+"
  | negate => "-"
  | not => "!"
  | complement => "^"
  | addressOf => "&"
  | deref => "*"

inductive AssignOp where
  | assign
  | define
  | compound (op : BinaryOp)
deriving DecidableEq, Repr

-- A compound of an operator that has none is printed as `?=`.
def AssignOp.render : AssignOp → String
  | assign => "="
  | define => ":="
  | compound op => if op.isArithmetic then op.render ++ "=" else "?="

end FieldAccess
