import FieldAccess.Syntax.Decl

namespace FieldAccess

mutual

def Expr.names : Expr → List String
  | .ident _ name => [name]
  | .literal _ _ | .typeOperand _ _ => []
  | .select _ base _ => base.names
  | .call _ callee _ args => callee.names ++ namesOfExprs args
  | .index _ base i => base.names ++ i.names
  | .binary _ _ left right => left.names ++ right.names
  | .unary _ _ operand => operand.names
  | .paren _ inner => inner.names
  | .composite _ _ elements => namesOfElements elements

def namesOfExprs : List Expr → List String
  | [] => []
  | e :: rest => e.names ++ namesOfExprs rest

def namesOfElements : List Element → List String
  | [] => []
  | .positional value :: rest => value.names ++ namesOfElements rest
  | .keyed key value :: rest => key.names ++ value.names ++ namesOfElements rest

end

mutual

def Stmt.names : Stmt → List String
  | .empty _ | .breakLoop _ | .continueLoop _ => []
  | .expr value => value.names
  | .assign _ targets _ values => namesOfExprs targets ++ namesOfExprs values
  | .step _ target _ => target.names
  | .var _ names _ values => names ++ namesOfExprs values
  | .block body => body.names
  | .ifElse _ init cond body orElse =>
    namesOfOption init ++ cond.names ++ body.names ++ namesOfOption orElse
  | .forLoop _ init cond post body =>
    namesOfOption init ++ namesOfExprs cond.toList ++ namesOfOption post ++ body.names
  | .range _ key value _ iterable body =>
    namesOfExprs key.toList ++ namesOfExprs value.toList ++ iterable.names ++ body.names
  | .switch _ init tag cases => namesOfOption init ++ namesOfExprs tag.toList ++ namesOfCases cases
  | .ret _ values => namesOfExprs values

def Block.names : Block → List String
  | .mk _ statements => namesOfStmts statements

def namesOfOption : Option Stmt → List String
  | none => []
  | some s => s.names

def namesOfStmts : List Stmt → List String
  | [] => []
  | s :: rest => s.names ++ namesOfStmts rest

def namesOfCases : List Case → List String
  | [] => []
  | .mk _ values body :: rest => namesOfExprs values ++ namesOfStmts body ++ namesOfCases rest

end

def FuncDecl.names (f : FuncDecl) : List String :=
  f.receiver.toList.map (·.name) ++ f.params.map (·.name) ++ f.typeParams.map (·.name) ++
    f.body.names

end FieldAccess
