import FieldAccess.Syntax.Span
import FieldAccess.Syntax.TypeExpr
import FieldAccess.Syntax.Operator

namespace FieldAccess

inductive Literal where
  | int (value : Int64)
  | float (value : Float)
  | string (text : String)
  | bool (value : Bool)
  | nil

mutual

inductive Expr where
  | ident (span : Span) (name : String)
  | literal (span : Span) (value : Literal)
  | select (span : Span) (base : Expr) (member : String)
  | call (span : Span) (callee : Expr) (typeArgs : List TypeExpr) (args : List Expr)
  | index (span : Span) (base : Expr) (index : Expr)
  | binary (span : Span) (op : BinaryOp) (left : Expr) (right : Expr)
  | unary (span : Span) (op : UnaryOp) (operand : Expr)
  | paren (span : Span) (inner : Expr)
  | composite (span : Span) (type : TypeExpr) (elements : List Element)
  -- A type in operand position, such as the first argument of `make`.
  | typeOperand (span : Span) (type : TypeExpr)

inductive Element where
  | positional (value : Expr)
  | keyed (key : Expr) (value : Expr)

end

instance : Inhabited Expr := ⟨.literal .nowhere .nil⟩

namespace Element

def key? : Element → Option Expr
  | positional _ => none
  | keyed key _ => some key

def value : Element → Expr
  | positional value => value
  | keyed _ value => value

def ofKey (key : Option Expr) (value : Expr) : Element :=
  match key with
  | none => positional value
  | some key => keyed key value

end Element

namespace Expr

def span : Expr → Span
  | ident span _ | literal span _ | select span _ _ | call span _ _ _ | index span _ _
  | binary span _ _ _ | unary span _ _ | paren span _ | composite span _ _ | typeOperand span _ =>
    span

def ident? : Expr → Option String
  | ident _ name => some name
  | _ => none

def member? : Expr → Option String
  | select _ _ member => some member
  | _ => none

def isBlank (e : Expr) : Bool :=
  e.ident? = some "_"

def unparen : Expr → Expr
  | paren _ inner => inner.unparen
  | e => e

def precedence : Expr → Nat
  | binary _ op _ _ => op.precedence
  | unary _ _ _ => 6
  | _ => 7

mutual

def isCallFree : Expr → Bool
  | ident _ _ | literal _ _ | typeOperand _ _ => true
  | call _ _ _ _ => false
  | select _ base _ => base.isCallFree
  | index _ base i => base.isCallFree && i.isCallFree
  | binary _ _ left right => left.isCallFree && right.isCallFree
  | unary _ _ operand => operand.isCallFree
  | paren _ inner => inner.isCallFree
  | composite _ _ elements => areCallFree elements

def areCallFree : List Element → Bool
  | [] => true
  | .positional value :: rest => value.isCallFree && areCallFree rest
  | .keyed key value :: rest => key.isCallFree && value.isCallFree && areCallFree rest

end

end Expr

end FieldAccess
