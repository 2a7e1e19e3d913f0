import FieldAccess.Redirect.Shorthand
import FieldAccess.Redirect.Temporaries
import FieldAccess.Redirect.Value

namespace FieldAccess

structure AssignPlan where
  bindings : List Stmt := []
  plain : Option Stmt := none
  readsBindings : Bool := false
  mutators : List Stmt := []

namespace AssignPlan

def keep (s : Stmt) : AssignPlan :=
  { plain := some s }

def writesFields (p : AssignPlan) : Bool :=
  !p.mutators.isEmpty

def statements (p : AssignPlan) : List Stmt :=
  p.bindings ++ p.plain.toList ++ p.mutators

end AssignPlan

def Expr.nameHint : Expr → String
  | .ident _ name => name
  | .select _ _ member => member
  | .index _ base _ => base.nameHint
  | .paren _ inner => inner.nameHint
  | .unary _ _ operand => operand.nameHint
  | .call _ callee _ _ => callee.nameHint
  | _ => "v"

def Expr.isStable (written : List String) : Expr → Bool
  | .ident _ name => !written.contains name
  | .paren _ inner => inner.isStable written
  | _ => false

def Expr.callNamed (name : String) (args : List Expr) (span : Span) : Expr :=
  .call span (.ident span name) [] args

namespace TypedExpr

def isConstant (e : TypedExpr) : Bool :=
  e.type.any (·.isUntyped) && e.expr.isCallFree

def hasType (e : TypedExpr) (type : TypeExpr) : Bool :=
  e.type = some (.known type)

end TypedExpr

namespace FieldInfo

-- The type of the mutator's parameter, except that the values of an enumeration count as what they
-- represent.
def writeType? (info : FieldInfo) : Option TypeExpr :=
  info.classification?.bind fun
    | .relation .single target => some (.pointer (.named target))
    | .relation .multi target => some (.slice (.pointer (.named target)))
    | _ => info.declaredType?

def isEnumType (info : FieldInfo) (type : TypeExpr) : Bool :=
  info.enum?.any fun enum =>
    type = .named enum || info.isMulti && type = .slice (.named enum)

-- Whether a value of the given type may be written. What is not known is allowed.
def accepts (info : FieldInfo) (found : StaticType) : Bool :=
  info.writeType?.all found.assignableTo || found.known?.any info.isEnumType

def literalElements? : Expr → Option (List Expr)
  | .composite _ (.slice _) elements =>
    if elements.all (·.key?.isNone) then some (elements.map (·.value)) else none
  | _ => none

def argument (info : FieldInfo) (settings : Settings) (value : TypedExpr) (span : Span) : Expr :=
  match info.enum? with
  | none => value.expr
  | some enum =>
    if info.isMulti then
      if value.hasType (.slice (.named enum)) || value.type = some .untypedNil then value.expr
      else match literalElements? value.expr with
      | some elements =>
        .composite value.expr.span (.slice (.named enum))
          (elements.map fun e => .positional (.callNamed enum [e] span))
      | none => .callNamed (settings.sliceHelper enum) [value.expr] span
    else if value.hasType (.named enum) then value.expr
    else .callNamed enum [value.expr] span

def write (info : FieldInfo) (settings : Settings) (receiver : Expr) (value : TypedExpr)
    (span : Span) : Stmt :=
  .expr (.call span (.select span receiver info.mutator) [] [info.argument settings value span])

end FieldInfo

-- Variables and the values that they are to hold: one each, or a single call with all values.
structure Captured where
  names : List String := []
  values : List Expr := []

namespace Captured

def append (a b : Captured) : Captured :=
  ⟨a.names ++ b.names, a.values ++ b.values⟩

instance : Append Captured := ⟨append⟩

-- The statement that evaluates the values. It declares nothing when all names are blank.
def statement? (c : Captured) (span : Span) : Option Stmt :=
  let targets := c.names.map (.ident span)
  if c.names.all (· = "_") then
    if c.values.isEmpty then none else some (.assign span targets .assign c.values)
  else some (.assign span targets .define c.values)

end Captured

structure TargetPlan where
  captured : Captured := {}
  plain : Option (Expr × Expr) := none
  mutator : Option Stmt := none

section

variable (settings : Settings) (span : Span)

def captureOperand (e : Expr) : StateM Temporaries (Expr × Captured) := do
  let name ← Temporaries.fresh e.nameHint
  return (.ident span name, ⟨[name], [e]⟩)

def captureCalling (e : Expr) : StateM Temporaries (Expr × Captured) :=
  if e.isCallFree then return (e, {}) else captureOperand span e

def capturePlace : Expr → StateM Temporaries (Expr × Captured)
  | .paren _ inner => capturePlace inner
  | .index at_ base i => do
    let (base, first) ← captureCalling span base
    let (i, second) ← captureCalling span i
    return (.index at_ base i, first ++ second)
  | .select at_ base member => do
    let (base, captured) ← captureCalling span base
    return (.select at_ base member, captured)
  | .unary at_ .deref inner => do
    let (inner, captured) ← captureCalling span inner
    return (.unary at_ .deref inner, captured)
  | place => return (place, {})

-- Binds the operands of a target that would otherwise be evaluated too late: a receiver other than
-- a name that the assignment leaves alone and, if `places` is set, what the place of a plain target
-- calls.
def captureTarget (written : List String) (places : Bool) :
    Target → StateM Temporaries (Target × Captured)
  | .field receiver info =>
    if receiver.isStable written then return (.field receiver info, {})
    else do
      let (receiver, captured) ← captureOperand span receiver
      return (.field receiver info, captured)
  | .plain place =>
    if places && !place.isCallFree then do
      let (place, captured) ← capturePlace span place
      return (.plain place, captured)
    else return (.plain place, {})
  | .blank => return (.blank, {})

-- A constant gets no temporary, since a variable would fix its type. Of the results of a call that
-- gives all values only the name is recorded.
def captureValue (hint : String) (value : Option TypedExpr) :
    StateM Temporaries (TypedExpr × Captured) :=
  match value with
  | none => do
    let name ← Temporaries.fresh hint
    return (⟨.ident span name, none⟩, ⟨[name], []⟩)
  | some value =>
    if value.isConstant then return (value, {})
    else do
      let name ← Temporaries.fresh hint
      return (⟨.ident span name, value.type⟩, ⟨[name], [value.expr]⟩)

-- The value of a blank target is evaluated if that calls something.
def discard : Option TypedExpr → Captured
  | none => ⟨["_"], []⟩
  | some value => if value.expr.isCallFree then {} else ⟨["_"], [value.expr]⟩

def planTarget (inPlace : Bool) (target : Target) (value : Option TypedExpr) :
    StateM Temporaries TargetPlan :=
  match target, if inPlace then value else none with
  | .field receiver info, _ => do
    let (source, captured) ← captureValue span info.name value
    return { captured, mutator := some (info.write settings receiver source span) }
  | .plain place, some value => return { plain := some (place, value.expr) }
  | .plain place, none => do
    let (source, captured) ← captureValue span place.nameHint value
    return { captured, plain := some (place, source.expr) }
  | .blank, some value => return { plain := some (.ident span "_", value.expr) }
  | .blank, none => return { captured := discard value }

def plainStatement? (pairs : List (Expr × Expr)) : Option Stmt :=
  if pairs.isEmpty then none
  else some (.assign span (pairs.map (·.1)) .assign (pairs.map (·.2)))

-- All operands and values are evaluated before anything is written, in the order in which they
-- stand: the temporaries hold them until then. When nothing in the assignment calls anything, its
-- plain part may keep its values.
def planTargets (targets : List Target) (values : List TypedExpr) :
    StateM Temporaries AssignPlan := do
  let paired := targets.length = values.length
  let hasPlain := targets.any (·.isPlain)
  let callFree := paired && values.all (·.expr.isCallFree) &&
    targets.all fun | .plain place => place.isCallFree | _ => true
  let written := targets.filterMap fun | .plain place => place.ident? | _ => none
  let operands ← targets.mapM (captureTarget span written (hasPlain && !callFree))
  let sources := if paired then values.map some else targets.map fun _ => none
  let plans ← ((operands.map (·.1)).zip sources).mapM fun (target, value) =>
    planTarget settings span (hasPlain && callFree) target value
  let first := operands.foldl (· ++ ·.2) ({} : Captured)
  let second := plans.foldl (· ++ ·.captured) ({} : Captured)
  let bindings :=
    if paired then [first ++ second] else [first, ⟨second.names, values.map (·.expr)⟩]
  return {
    bindings := bindings.filterMap (·.statement? span)
    plain := plainStatement? span (plans.filterMap (·.plain))
    readsBindings := hasPlain && !callFree
    mutators := plans.filterMap (·.mutator) }

end

abbrev Redirecting :=
  StateT Temporaries (Except RedirectError)

namespace RedirectContext

variable {σ : Type} [TypeOracle σ]

def checkWrite (r : RedirectContext) (info : FieldInfo) (value : Option StaticType) (span : Span) :
    Except RedirectError Unit :=
  match info.writeType?, value with
  | some expected, some found =>
    if info.accepts found then return ()
    else r.fail span (.typeMismatch info.entity info.name expected found)
  | _, _ => return ()

def checkWrites (r : RedirectContext) (span : Span) :
    List Target → List TypedExpr → Except RedirectError Unit
  | .field _ info :: targets, value :: values => do
    r.checkWrite info value.type span
    checkWrites r span targets values
  | _ :: targets, _ :: values => checkWrites r span targets values
  | _, _ => return ()

def planAssign (r : RedirectContext) (o : σ) (span : Span) (written values : List Expr) :
    Redirecting AssignPlan := do
  let targets ← r.targets o written
  let values ← r.values o values
  if targets.any (·.isField) then
    if targets.length = values.length then r.checkWrites span targets values
    match targets, values with
    | [.field receiver info], [value] =>
      return { mutators := [info.write r.settings receiver value span] }
    | targets, values => modifyGet (planTargets r.settings span targets values)
  else
    return .keep (.assign span (targets.zipWith (fun t e => t.place e) written) .assign
      (values.map (·.expr)))

-- Plans `target op= value` when the target calls something. A field is then read and written
-- through one temporary for its receiver; any other target keeps the form in which it was written.
def planCompound (r : RedirectContext) (o : σ) (span : Span) (target : Expr) (op : BinaryOp)
    (value : Expr) (form : Expr → Expr → Stmt) : Redirecting AssignPlan := do
  let resolved ← r.target o target
  let value ← r.value o value
  match resolved with
  | .field receiver info =>
    let (temp, captured) ← modifyGet (captureOperand span receiver)
    let read := info.read temp span
    let combined : TypedExpr :=
      ⟨.binary span op read.expr (value.expr.asOperandOf op span), read.type⟩
    r.checkWrite info combined.type span
    return {
      bindings := (captured.statement? span).toList
      mutators := [info.write r.settings temp combined span] }
  | resolved => return .keep (form (resolved.place target) value.expr)

def plan (r : RedirectContext) (o : σ) (span : Span) (targets : List Expr) (op : AssignOp)
    (values : List Expr) : Redirecting AssignPlan :=
  match op with
  | .assign => r.planAssign o span targets values
  | .define => do
    return .keep (.assign span targets .define ((← r.values o values).map (·.expr)))
  | .compound op =>
    if Stmt.areRepeatable targets then
      let (targets, values) := Stmt.expandCompound op targets values
      r.planAssign o span targets values
    else match targets, values with
    | [target], [value] =>
      r.planCompound o span target op value fun target value =>
        .assign span [target] (.compound op) [value]
    | targets, values => return .keep (.assign span targets (.compound op) values)

def planStep (r : RedirectContext) (o : σ) (span : Span) (target : Expr) (increment : Bool) :
    Redirecting AssignPlan :=
  if target.isCallFree then
    r.planAssign o span [target] [Stmt.steppedValue span target increment]
  else
    r.planCompound o span target (stepOp increment) (.literal span (.int 1)) fun target _ =>
      .step span target increment

end RedirectContext

end FieldAccess
