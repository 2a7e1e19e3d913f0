import FieldAccess.Redirect.Plan

namespace FieldAccess

inductive Header where
  | ifInit
  | elseIfInit
  | forInit
  | forPost
  | switchInit
deriving DecidableEq, Repr

structure Relocated where
  header : Option Stmt := none
  -- Stands right before the construct.
  before : List Stmt := []
  -- Stands at the end of the loop's body.
  after : List Stmt := []

namespace Stmt

mutual

def continues : Stmt → Bool
  | .continueLoop _ => true
  | .block body => blockContinues body
  | .ifElse _ _ _ body orElse => blockContinues body || optionContinues orElse
  | .switch _ _ _ cases => casesContinue cases
  | _ => false

def optionContinues : Option Stmt → Bool
  | none => false
  | some s => continues s

def blockContinues : Block → Bool
  | .mk _ statements => listContinues statements

def listContinues : List Stmt → Bool
  | [] => false
  | s :: rest => continues s || listContinues rest

def casesContinue : List Case → Bool
  | [] => false
  | .mk _ _ body :: rest => listContinues body || casesContinue rest

end

end Stmt

namespace RedirectContext

-- Bindings and mutators of an initializer go in front of the construct, those of a post statement
-- to the end of the loop's body. There is no place in front of an else-if, and no end of the body
-- to reach from a `continue`.
def relocate (r : RedirectContext) (place : Header) (span : Span) (p : AssignPlan) :
    Except RedirectError Relocated :=
  let kept := p.plain.getD (.empty span)
  if !p.writesFields then return { header := p.plain }
  else match place with
  | .elseIfInit => r.fail span (.relocation .elseIf)
  | .forPost =>
    if p.readsBindings then return { header := some (.empty span), after := p.statements }
    else return { header := some kept, after := p.bindings ++ p.mutators }
  | .ifInit | .forInit | .switchInit =>
    return { header := some kept, before := p.bindings ++ p.mutators }

variable {σ : Type} [TypeOracle σ]

def header (r : RedirectContext) (o : σ) (place : Header) : Option Stmt → Redirecting Relocated
  | none => return {}
  | some (.assign span targets op values) => do
    r.relocate place span (← r.plan o span targets op values)
  | some (.step span target increment) => do
    r.relocate place span (← r.planStep o span target increment)
  | some (.expr e) => do return { header := some (.expr (← r.value o e).expr) }
  | some s => return { header := some s }

end RedirectContext

end FieldAccess
