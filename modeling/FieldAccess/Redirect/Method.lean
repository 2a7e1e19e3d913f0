import FieldAccess.Redirect.Header
import FieldAccess.Typing.TypeContext

namespace FieldAccess

structure RangeHeader where
  key : Option Expr
  value : Option Expr
  define : Bool
  prelude : List Stmt := []

namespace RedirectContext

variable {σ : Type} [TypeOracle σ]

-- Gives a target of a loop over elements a variable of its own, from which it is written.
def rangeTarget (r : RedirectContext) (span : Span) (type : Option TypeExpr) :
    Option Target → Redirecting (Option Expr × List Stmt)
  | none => return (none, [])
  | some .blank => return (some (.ident span "_"), [])
  | some (.plain place) => do
    let temp := .ident span (← modifyGet (Temporaries.fresh place.nameHint))
    return (some temp, [.assign span [place] .assign [temp]])
  | some (.field receiver info) => do
    let temp := .ident span (← modifyGet (Temporaries.fresh info.name))
    r.checkWrite info (type.map .known) span
    return (some temp, [info.write r.settings receiver ⟨temp, type.map .known⟩ span])

def elementTypes : Option StaticType → Option TypeExpr × Option TypeExpr
  | some (.known (.slice element)) => (some .int, some element)
  | some (.known (.map key value)) => (some key, some value)
  | _ => (none, none)

-- Redirects the targets of a loop over elements that assigns to existing places.
def rangeHeader (r : RedirectContext) (o : σ) (span : Span) (key value : Option Expr)
    (iterable : Option StaticType) : Redirecting RangeHeader := do
  let keyTarget ← key.mapM (liftM <| r.target o ·)
  let valueTarget ← value.mapM (liftM <| r.target o ·)
  if keyTarget.any (·.isField) || valueTarget.any (·.isField) then
    let (keyType, valueType) := elementTypes iterable
    let (newKey, first) ← r.rangeTarget span keyType keyTarget
    let (newValue, second) ← r.rangeTarget span valueType valueTarget
    return ⟨newKey, newValue, true, first ++ second⟩
  else
    let place (written : Option Expr) (t : Option Target) : Option Expr :=
      written.bind fun written => t.map (·.place written)
    return ⟨place key keyTarget, place value valueTarget, false, []⟩

mutual

def stmt (r : RedirectContext) (o : σ) (elseIf : Bool) (s : Stmt) : Redirecting (List Stmt) :=
  match s with
  | .empty _ | .breakLoop _ | .continueLoop _ => return [s]
  | .expr e => do return [.expr (← r.value o e).expr]
  | .assign span targets op values => do return (← r.plan o span targets op values).statements
  | .step span target increment => do return (← r.planStep o span target increment).statements
  | .var span names type values => do
    return [.var span names type ((← r.values o values).map (·.expr))]
  | .ret span values => do return [.ret span ((← r.values o values).map (·.expr))]
  | .block body => do return [.block (← block r o body)]
  | .ifElse span init cond body orElse => do
    let moved ← r.header o (if elseIf then .elseIfInit else .ifInit) init
    let inner := TypeOracle.declareHeader o init
    let cond ← r.value inner cond
    let body ← block r inner body
    let orElse ← branch r inner orElse
    return moved.before ++ [.ifElse span moved.header cond.expr body orElse]
  | .forLoop span init cond post body => do
    let moved ← r.header o .forInit init
    let inner := TypeOracle.declareHeader o init
    let cond ← r.value? inner cond
    let movedPost ← r.header inner .forPost post
    if !movedPost.after.isEmpty && Stmt.blockContinues body then
      r.fail ((post.map (·.span)).getD span) (.relocation .continued)
    let body ← block r inner body
    return moved.before ++ [.forLoop span moved.header cond movedPost.header
      (.mk body.span (body.statements ++ movedPost.after))]
  | .range span key value define iterable body => do
    let iterable ← r.value o iterable
    let inner := TypeOracle.declare o s
    let head ←
      if define then pure ⟨key, value, true, []⟩
      else r.rangeHeader inner span key value iterable.type
    let body ← block r inner body
    return [.range span head.key head.value head.define iterable.expr
      (.mk body.span (head.prelude ++ body.statements))]
  | .switch span init tag cases => do
    let moved ← r.header o .switchInit init
    let inner := TypeOracle.declareHeader o init
    let tag ← r.value? inner tag
    return moved.before ++ [.switch span moved.header tag (← caseList r inner cases)]

-- Redirects the else branch of an `if`. Nothing can stand in front of it, so it stays one
-- statement.
def branch (r : RedirectContext) (o : σ) : Option Stmt → Redirecting (Option Stmt)
  | none => return none
  | some s => do
    match s with
    | .ifElse _ _ _ _ _ | .block _ => return (← stmt r o true s).getLast?
    | _ => return some s

def block (r : RedirectContext) (o : σ) : Block → Redirecting Block
  | .mk span statements => do return .mk span (← stmts r o statements)

def stmts (r : RedirectContext) (o : σ) : List Stmt → Redirecting (List Stmt)
  | [] => return []
  | s :: rest => do
    let first ← stmt r o false s
    return first ++ (← stmts r (TypeOracle.declare o s) rest)

def caseList (r : RedirectContext) (o : σ) : List Case → Redirecting (List Case)
  | [] => return []
  | .mk span values body :: rest => do
    let values ← r.values o values
    let body ← stmts r o body
    return .mk span (values.map (·.expr)) body :: (← caseList r o rest)

end

end RedirectContext

namespace FuncDecl

def receiverScope (f : FuncDecl) (catalog : Catalog) : Except RedirectError RedirectScope :=
  match RedirectScope.of? catalog (f.receiverEntity?.getD "") with
  | some scope => return scope
  | none => throw ⟨f.name, f.span, .unknownReceiver (f.receiver.map (·.type))⟩

def expand (f : FuncDecl) : FuncDecl :=
  { f with body := f.body.expand }

def redirectIn {σ : Type} [TypeOracle σ] (f : FuncDecl) (settings : Settings) (o : σ)
    (scope : RedirectScope) : Except RedirectError FuncDecl := do
  let (body, _) ← (RedirectContext.block ⟨f.name, scope, settings⟩ o f.body).run (.ofMethod f)
  return { f with body }

-- Redirects a method with types from any source; the scope is that of the receiver alone.
def redirectWith {σ : Type} [TypeOracle σ] (f : FuncDecl) (catalog : Catalog) (settings : Settings)
    (o : σ) : Except RedirectError FuncDecl := do
  f.expand.redirectIn settings o (← f.receiverScope catalog)

-- Redirects a method. Its scope holds the entities of the receiver and of all names that the method
-- binds.
def redirect (f : FuncDecl) (catalog : Catalog) (methods : MethodTable) (settings : Settings) :
    Except RedirectError FuncDecl := do
  let scope ← f.receiverScope catalog
  let types := TypeContext.typesInMethod catalog methods f.expand
  let scope := (types.filterMap (·.namedTarget?)).foldl (·.includeIfEntity ·) scope
  f.expand.redirectIn settings (TypeContext.ofMethod catalog methods f.expand) scope

end FuncDecl

end FieldAccess
