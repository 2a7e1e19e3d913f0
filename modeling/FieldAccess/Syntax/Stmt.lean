import FieldAccess.Syntax.Expr

namespace FieldAccess

mutual

inductive Stmt where
  -- Stands in a header slot whose content moved elsewhere.
  | empty (span : Span)
  | expr (value : Expr)
  | assign (span : Span) (targets : List Expr) (op : AssignOp) (values : List Expr)
  | step (span : Span) (target : Expr) (increment : Bool)
  | var (span : Span) (names : List String) (type : Option TypeExpr) (values : List Expr)
  | block (body : Block)
  -- The else branch is a block or a further `if`.
  | ifElse (span : Span) (init : Option Stmt) (cond : Expr) (body : Block) (orElse : Option Stmt)
  | forLoop (span : Span) (init : Option Stmt) (cond : Option Expr) (post : Option Stmt)
      (body : Block)
  | range (span : Span) (key : Option Expr) (value : Option Expr) (define : Bool) (iterable : Expr)
      (body : Block)
  | switch (span : Span) (init : Option Stmt) (tag : Option Expr) (cases : List Case)
  | ret (span : Span) (values : List Expr)
  | breakLoop (span : Span)
  | continueLoop (span : Span)

inductive Block where
  | mk (span : Span) (statements : List Stmt)

inductive Case where
  | mk (span : Span) (values : List Expr) (body : List Stmt)

end

instance : Inhabited Stmt := ⟨.empty .nowhere⟩

namespace Block

def span : Block → Span
  | mk span _ => span

def statements : Block → List Stmt
  | mk _ statements => statements

end Block

namespace Case

def span : Case → Span
  | mk span _ _ => span

def values : Case → List Expr
  | mk _ values _ => values

def body : Case → List Stmt
  | mk _ _ body => body

end Case

namespace Stmt

def span : Stmt → Span
  | empty span | assign span _ _ _ | step span _ _ | var span _ _ _ | ifElse span _ _ _ _
  | forLoop span _ _ _ _ | range span _ _ _ _ _ | switch span _ _ _ | ret span _ | breakLoop span
  | continueLoop span => span
  | expr value => value.span
  | block body => body.span

def isEmpty : Stmt → Bool
  | empty _ => true
  | _ => false

def isRange : Stmt → Bool
  | range _ _ _ _ _ _ => true
  | _ => false

end Stmt

end FieldAccess
