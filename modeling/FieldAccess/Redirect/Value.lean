import FieldAccess.Redirect.Error
import FieldAccess.Redirect.Scope
import FieldAccess.Typing.Oracle

namespace FieldAccess

structure RedirectContext where
  method : String
  scope : RedirectScope
  settings : Settings

-- The type goes along, so that a chain of selectors is resolved against the result of the accessor
-- before it.
structure TypedExpr where
  expr : Expr
  type : Option StaticType

inductive Resolution where
  | proxied (info : FieldInfo)
  | direct (info : FieldInfo)
  | other

inductive Target where
  | blank
  | plain (place : Expr)
  | field (receiver : Expr) (info : FieldInfo)

namespace Target

def isField : Target → Bool
  | field _ _ => true
  | _ => false

def isPlain : Target → Bool
  | plain _ => true
  | _ => false

-- The expression of a target that is no field; the blank name stands as it was written.
def place (written : Expr) : Target → Expr
  | plain place => place
  | _ => written

end Target

def FieldInfo.read (info : FieldInfo) (receiver : Expr) (span : Span) : TypedExpr :=
  ⟨.call span (.select span receiver info.accessor) [] [], info.declaredType?.map .known⟩

namespace RedirectContext

variable {σ : Type} [TypeOracle σ]

def fail {α : Type} (r : RedirectContext) (span : Span) (fault : RedirectFault) :
    Except RedirectError α :=
  throw ⟨r.method, span, fault⟩

def resolve (r : RedirectContext) (o : σ) (base : Option StaticType) (member : String)
    (span : Span) : Except RedirectError Resolution :=
  match base.bind (·.known?) with
  | none => return .other
  | some type =>
    match type.namedTarget?.bind (r.scope.field? · member) with
    | none => return .other
    | some info =>
      if TypeOracle.isField o type member then
        match info.access with
        | .proxied _ => return .proxied info
        | .direct => return .direct info
        | .unavailable => r.fail span (.missingAccessor info.entity info.name)
      else return .other

mutual

def value (r : RedirectContext) (o : σ) (e : Expr) : Except RedirectError TypedExpr :=
  match e with
  | .ident _ _ | .literal _ _ | .typeOperand _ _ => return ⟨e, TypeOracle.typeOf? o e⟩
  | .select span base member => do
    let base ← value r o base
    match ← r.resolve o base.type member span with
    | .proxied info => return info.read base.expr span
    | .direct info => return ⟨.select span base.expr member, info.declaredType?.map .known⟩
    | .other => return ⟨.select span base.expr member, TypeOracle.typeOf? o e⟩
  | .call span callee typeArgs args => do
    let callee ← value r o callee
    let args ← values r o args
    return ⟨.call span callee.expr typeArgs (args.map (·.expr)), TypeOracle.typeOf? o e⟩
  | .index span base i => do
    let base ← value r o base
    let i ← value r o i
    let element := (base.type.bind (·.known?)).bind (·.element?)
    return ⟨.index span base.expr i.expr, (element.map .known).or (TypeOracle.typeOf? o e)⟩
  | .binary span op left right => do
    let left ← value r o left
    let right ← value r o right
    return ⟨.binary span op left.expr right.expr, TypeOracle.typeOf? o e⟩
  | .unary span op operand => do
    let operand ← value r o operand
    return ⟨.unary span op operand.expr, TypeOracle.typeOf? o e⟩
  | .paren span inner => do
    let inner ← value r o inner
    return ⟨.paren span inner.expr, inner.type⟩
  | .composite span type list => do
    return ⟨.composite span type (← elements r o list), some (.known type)⟩

def values (r : RedirectContext) (o : σ) : List Expr → Except RedirectError (List TypedExpr)
  | [] => return []
  | e :: rest => do
    let e ← value r o e
    return e :: (← values r o rest)

def elements (r : RedirectContext) (o : σ) : List Element → Except RedirectError (List Element)
  | [] => return []
  | .positional v :: rest => do
    let v ← value r o v
    return .positional v.expr :: (← elements r o rest)
  | .keyed k v :: rest => do
    let k ← value r o k
    let v ← value r o v
    return .keyed k.expr v.expr :: (← elements r o rest)

end

def value? (r : RedirectContext) (o : σ) : Option Expr → Except RedirectError (Option Expr)
  | none => return none
  | some e => do return some (← value r o e).expr

-- Resolves what an assignment writes to. What a target only reads is redirected as a value.
def target (r : RedirectContext) (o : σ) (e : Expr) : Except RedirectError Target :=
  match e with
  | .ident _ _ => return if e.isBlank then .blank else .plain e
  | .paren _ inner => target r o inner
  | .select span base member => do
    let base ← value r o base
    match ← r.resolve o base.type member span with
    | .proxied info => return .field base.expr info
    | _ => return .plain (.select span base.expr member)
  | _ => do return .plain (← value r o e).expr

def targets (r : RedirectContext) (o : σ) (es : List Expr) : Except RedirectError (List Target) :=
  es.mapM (r.target o)

end RedirectContext

end FieldAccess
