import FieldAccess.Syntax.Stmt

namespace FieldAccess

-- The operand that `op` takes on its right; one that binds no tighter than `op` gets parentheses.
def Expr.asOperandOf (e : Expr) (op : BinaryOp) (span : Span) : Expr :=
  if e.precedence ≤ op.precedence then .paren span e else e

def stepOp (increment : Bool) : BinaryOp :=
  if increment then .add else .sub

namespace Stmt

-- A target that calls something (`xs[next()] += 1`) is never written twice, since that would call
-- it twice; such a statement is no shorthand.
def areRepeatable (targets : List Expr) : Bool :=
  targets.all (·.isCallFree)

-- The targets and values of the assignment that `targets op= values` stands for. Only the first
-- target and the first value count.
def expandCompound (op : BinaryOp) (targets values : List Expr) : List Expr × List Expr :=
  match targets, values with
  | target :: _, value :: _ =>
    ([target], [.binary target.span op target (value.asOperandOf op value.span)])
  | targets, values => (targets, values)

def steppedValue (span : Span) (target : Expr) (increment : Bool) : Expr :=
  .binary target.span (stepOp increment) target (.literal span (.int 1))

mutual

def expand : Stmt → Stmt
  | .assign span targets (.compound op) values =>
    if areRepeatable targets then
      let (targets, values) := expandCompound op targets values
      .assign span targets .assign values
    else .assign span targets (.compound op) values
  | .step span target increment =>
    if target.isCallFree then .assign span [target] .assign [steppedValue span target increment]
    else .step span target increment
  | .block body => .block (expandBlock body)
  | .ifElse span init cond body orElse =>
    .ifElse span (expandOption init) cond (expandBlock body) (expandOption orElse)
  | .forLoop span init cond post body =>
    .forLoop span (expandOption init) cond (expandOption post) (expandBlock body)
  | .range span key value define iterable body =>
    .range span key value define iterable (expandBlock body)
  | .switch span init tag cases => .switch span (expandOption init) tag (expandCases cases)
  | s => s

def expandOption : Option Stmt → Option Stmt
  | none => none
  | some s => some (expand s)

def expandBlock : Block → Block
  | .mk span statements => .mk span (expandList statements)

def expandList : List Stmt → List Stmt
  | [] => []
  | s :: rest => expand s :: expandList rest

def expandCases : List Case → List Case
  | [] => []
  | .mk span values body :: rest => .mk span values (expandList body) :: expandCases rest

end

mutual

def hasShorthand : Stmt → Bool
  | .assign _ targets (.compound _) _ => areRepeatable targets
  | .step _ target _ => target.isCallFree
  | .block body => blockHasShorthand body
  | .ifElse _ init _ body orElse =>
    optionHasShorthand init || blockHasShorthand body || optionHasShorthand orElse
  | .forLoop _ init _ post body =>
    optionHasShorthand init || optionHasShorthand post || blockHasShorthand body
  | .range _ _ _ _ _ body => blockHasShorthand body
  | .switch _ init _ cases => optionHasShorthand init || casesHaveShorthand cases
  | _ => false

def optionHasShorthand : Option Stmt → Bool
  | none => false
  | some s => hasShorthand s

def blockHasShorthand : Block → Bool
  | .mk _ statements => listHasShorthand statements

def listHasShorthand : List Stmt → Bool
  | [] => false
  | s :: rest => hasShorthand s || listHasShorthand rest

def casesHaveShorthand : List Case → Bool
  | [] => false
  | .mk _ _ body :: rest => listHasShorthand body || casesHaveShorthand rest

end

end Stmt

def Block.expand (b : Block) : Block :=
  Stmt.expandBlock b

def Block.hasShorthand (b : Block) : Bool :=
  Stmt.blockHasShorthand b

end FieldAccess
