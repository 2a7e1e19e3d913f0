import FieldAccess.Syntax.Decl

namespace FieldAccess.Code

section

variable (span : Span)

def ident (name : String) : Expr :=
  .ident span name

def text (value : String) : Expr :=
  .literal span (.string value)

def number (value : Int64) : Expr :=
  .literal span (.int value)

def nil : Expr :=
  .literal span .nil

def member (base : Expr) (member : String) : Expr :=
  .select span base member

def item (base i : Expr) : Expr :=
  .index span base i

def apply (function : String) (args : List Expr) : Expr :=
  .call span (ident span function) [] args

def method (receiver : Expr) (method : String) (args : List Expr) : Expr :=
  .call span (member span receiver method) [] args

def make (type : TypeExpr) (sizes : List Expr) : Expr :=
  apply span "make" (.typeOperand span type :: sizes)

def fresh (type : TypeExpr) : Expr :=
  .unary span .addressOf (.composite span type [])

def table (type : TypeExpr) (entries : List (Expr × Expr)) : Expr :=
  .composite span type (entries.map fun (key, value) => .keyed key value)

def define (names : List String) (value : Expr) : Stmt :=
  .assign span (names.map (ident span)) .define [value]

def assign (target value : Expr) : Stmt :=
  .assign span [target] .assign [value]

def block (statements : List Stmt) : Block :=
  .mk span statements

def branch (init : Option Stmt) (cond : Expr) (body : List Stmt) : Stmt :=
  .ifElse span init cond (block span body) none

def each (key : String) (value : Option String) (iterable : Expr) (body : List Stmt) : Stmt :=
  .range span (some (ident span key)) (value.map (ident span)) true iterable (block span body)

def answer (value : Expr) : Stmt :=
  .ret span [value]

def function (receiver : Option Param) (name : String) (params : List Param)
    (results : List TypeExpr) (body : List Stmt) : FuncDecl where
  doc := none
  receiver := receiver
  name := name
  typeParams := []
  params := params
  results := results
  body := block span body
  span := span

end

end FieldAccess.Code
