import FieldAccess.Decimal.Layout
import FieldAccess.Document.Basic
import FieldAccess.Syntax.Decl

namespace FieldAccess

namespace Document

def ofOption {α : Type} (f : α → Document) (part : Option α) : Document :=
  part.elim .null f

def ofType (type : TypeExpr) : Document :=
  .str type.render

def node (kind : String) (span : Span) (parts : List Document) : Document :=
  .list (.str kind :: .str span.render :: parts)

end Document

open Document

def Literal.toDocument (span : Span) : Literal → Document
  | .int value => node "int" span [.str (toString value.toInt)]
  | .float value => node "float" span [.str (Decimal.literal value)]
  | .string text => node "str" span [.str text]
  | .bool value => node "bool" span [.bool value]
  | .nil => node "nil" span []

mutual

def Expr.toDocument : Expr → Document
  | .ident span name => node "id" span [.str name]
  | .literal span value => value.toDocument span
  | .select span base member => node "sel" span [base.toDocument, .str member]
  | .call span callee typeArgs args =>
    node "call" span [callee.toDocument, .list (typeArgs.map ofType), .list (exprDocuments args)]
  | .index span base i => node "idx" span [base.toDocument, i.toDocument]
  | .binary span op left right =>
    node "bin" span [.str op.render, left.toDocument, right.toDocument]
  | .unary span op operand => node "un" span [.str op.render, operand.toDocument]
  | .paren span inner => node "par" span [inner.toDocument]
  | .composite span type elements =>
    node "comp" span [ofType type, .list (elementDocuments elements)]
  | .typeOperand span type => node "type" span [ofType type]

def exprDocuments : List Expr → List Document
  | [] => []
  | e :: rest => e.toDocument :: exprDocuments rest

def elementDocuments : List Element → List Document
  | [] => []
  | .positional value :: rest => .list [.null, value.toDocument] :: elementDocuments rest
  | .keyed key value :: rest => .list [key.toDocument, value.toDocument] :: elementDocuments rest

end

mutual

def Stmt.toDocument : Stmt → Document
  | .empty span => node "empty" span []
  | .expr value => .list [.str "expr", value.toDocument]
  | .assign span targets op values =>
    node "assign" span [.str op.render, .list (exprDocuments targets), .list (exprDocuments values)]
  | .step span target increment => node "incdec" span [.bool increment, target.toDocument]
  | .var span names type values =>
    node "var" span [.list (names.map .str), ofOption ofType type, .list (exprDocuments values)]
  | .block body => body.toDocument
  | .ifElse span init cond body orElse =>
    node "if" span [optionDocument init, cond.toDocument, body.toDocument, optionDocument orElse]
  | .forLoop span init cond post body =>
    node "for" span
      [optionDocument init, ofOption Expr.toDocument cond, optionDocument post, body.toDocument]
  | .range span key value define iterable body =>
    node "range" span [ofOption Expr.toDocument key, ofOption Expr.toDocument value, .bool define,
      iterable.toDocument, body.toDocument]
  | .switch span init tag cases =>
    node "switch" span
      [optionDocument init, ofOption Expr.toDocument tag, .list (caseDocuments cases)]
  | .ret span values => node "return" span [.list (exprDocuments values)]
  | .breakLoop span => node "break" span []
  | .continueLoop span => node "continue" span []

def Block.toDocument : Block → Document
  | .mk span statements => node "block" span [.list (stmtDocuments statements)]

def optionDocument : Option Stmt → Document
  | none => .null
  | some s => s.toDocument

def stmtDocuments : List Stmt → List Document
  | [] => []
  | s :: rest => s.toDocument :: stmtDocuments rest

def caseDocuments : List Case → List Document
  | [] => []
  | .mk span values body :: rest =>
    .list [.str span.render, .list (exprDocuments values), .list (stmtDocuments body)] ::
      caseDocuments rest

end

def Param.toDocument (p : Param) : Document :=
  .list [.str p.name, ofType p.type]

def TypeParam.toDocument (p : TypeParam) : Document :=
  .list [.str p.name, ofType p.bound]

def FuncDecl.toDocument (f : FuncDecl) : Document :=
  .table [("doc", ofOption .str f.doc), ("receiver", ofOption Param.toDocument f.receiver),
    ("name", .str f.name), ("type_params", .list (f.typeParams.map TypeParam.toDocument)),
    ("params", .list (f.params.map Param.toDocument)), ("results", .list (f.results.map ofType)),
    ("body", f.body.toDocument), ("span", .str f.span.render)]

end FieldAccess
