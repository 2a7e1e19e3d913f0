import FieldAccess.Syntax.Stmt

namespace FieldAccess

structure Param where
  name : String
  type : TypeExpr
deriving DecidableEq, Repr

structure TypeParam where
  name : String
  bound : TypeExpr
deriving DecidableEq, Repr

structure FuncDecl where
  doc : Option String
  receiver : Option Param
  name : String
  typeParams : List TypeParam
  params : List Param
  results : List TypeExpr
  body : Block
  span : Span

-- The entity a method belongs to: `Order` for both `Order` and `*Order`.
def FuncDecl.receiverEntity? (f : FuncDecl) : Option String :=
  f.receiver.bind (·.type.namedTarget?)

structure StructField where
  name : Option String
  type : TypeExpr
deriving DecidableEq, Repr

inductive Decl where
  | func (f : FuncDecl)
  | defined (name : String) (underlying : TypeExpr)
  | struct (name : String) (fields : List StructField)
  -- A numbered group: `const ( A T = iota; B; C )`.
  | consts (type : String) (names : List String)
  | var (name : String) (value : Expr)

namespace Decl

def name : Decl → String
  | func f => f.name
  | defined name _ | struct name _ | var name _ => name
  | consts type _ => type

def func? : Decl → Option FuncDecl
  | func f => some f
  | _ => none

end Decl

end FieldAccess
