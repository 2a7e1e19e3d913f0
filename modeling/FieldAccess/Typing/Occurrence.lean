import FieldAccess.Typing.TypeContext

namespace FieldAccess

inductive TypeOccurrence where
  | expr (span : Span) (type : Option StaticType)
  | range (key : Option TypeExpr) (value : Option TypeExpr)
deriving DecidableEq, Repr

namespace TypeContext

def occurrence (c : TypeContext) (e : Expr) : TypeOccurrence :=
  .expr e.span (c.typeOf? e)

mutual

def occurrences (c : TypeContext) : Stmt → List TypeOccurrence
  | .expr e => [c.occurrence e]
  | .block body => c.occurrencesInBlock body
  | .ifElse _ init cond body orElse =>
    let inner := TypeOracle.declareHeader c init
    inner.occurrence cond :: (inner.occurrencesInBlock body ++ inner.occurrencesInOption orElse)
  | .forLoop _ init cond _ body =>
    let inner := TypeOracle.declareHeader c init
    cond.toList.map inner.occurrence ++ inner.occurrencesInBlock body
  | .range span key value define iterable body =>
    let types := c.rangeTypes? iterable
    let inner := c.declare (.range span key value define iterable body)
    c.occurrence iterable :: .range types.1 types.2 :: inner.occurrencesInBlock body
  | .switch _ init tag cases =>
    let inner := TypeOracle.declareHeader c init
    tag.toList.map inner.occurrence ++ inner.occurrencesInCases cases
  | _ => []

def occurrencesInOption (c : TypeContext) : Option Stmt → List TypeOccurrence
  | none => []
  | some s => c.occurrences s

def occurrencesInBlock (c : TypeContext) : Block → List TypeOccurrence
  | .mk _ statements => c.occurrencesInList statements

def occurrencesInList (c : TypeContext) : List Stmt → List TypeOccurrence
  | [] => []
  | s :: rest => c.occurrences s ++ (c.declare s).occurrencesInList rest

def occurrencesInCases (c : TypeContext) : List Case → List TypeOccurrence
  | [] => []
  | .mk _ _ body :: rest => c.occurrencesInList body ++ c.occurrencesInCases rest

end

end TypeContext

end FieldAccess
