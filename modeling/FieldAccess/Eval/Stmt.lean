import FieldAccess.Eval.Place

namespace FieldAccess

inductive Flow where
  | next
  | breaks
  | continues
  | returns (values : List Value)

namespace Step

variable {α : Type}

def inScope (x : Step α) : Step α := do
  modify Frame.push
  let a ← x
  modify Frame.pop
  return a

def reading (f : Frame → Exec α) : Step α := do
  f (← get)

def define (name : String) (v : Value) : Step Unit :=
  modify (·.define name v)

def defineAll : List String → List Value → Step Unit
  | name :: names, v :: vs => do
    define name v
    defineAll names vs
  | _, _ => return ()

def defineTargets : List Expr → List Value → Step Unit
  | target :: targets, v :: vs => do
    define (← Exec.orFail (.type .definedTarget) target.ident?) v
    defineTargets targets vs
  | _, _ => return ()

def writeAll : List Place → List Value → Step Unit
  | place :: places, v :: vs => do
    place.write v
    writeAll places vs
  | _, _ => return ()

def loop (cond : Step Bool) (body post : Step Flow) : Nat → Step Flow
  | 0 => Exec.fail .roundLimit
  | rounds + 1 => do
    if ← cond then
      match ← body with
      | .breaks => return .next
      | .returns vs => return .returns vs
      | .next | .continues =>
        let _ ← post
        loop cond body post rounds
    else return .next

def forEach (round : α → Step Flow) : List α → Step Flow
  | [] => return .next
  | a :: rest => do
    match ← round a with
    | .breaks => return .next
    | .returns vs => return .returns vs
    | .next | .continues => forEach round rest

def sequence : List (Step Flow) → Step Flow
  | [] => return .next
  | x :: rest => do
    match ← x with
    | .next => sequence rest
    | flow => return flow

def itemsOf (v : Value) : Exec (List (Value × Value)) := do
  match v with
  | .slice items => return items.zipIdx.map fun (item, i) => (.int (Int64.ofNat i), item)
  | .map address => return ((← get).map address).entries.map fun (key, v) => (key.toValue, v)
  | .int count => return (List.range count.toInt.toNat).map fun i => (.int (Int64.ofNat i), .nil)
  | .nil => return []
  | v => Exec.failType (.notIterable v)

section

variable (p : Program) (call : CallHandler)

def eval (e : Expr) : Step Value :=
  reading (Exec.eval p call · e)

def evalFor (count : Nat) (es : List Expr) : Step (List Value) :=
  reading (Exec.evalFor p call · count es)

def resolve (e : Expr) : Step Place :=
  reading (Place.resolve p call · e)

def resolveAll : List Expr → Step (List Place)
  | [] => return []
  | e :: rest => do
    let place ← resolve p call e
    return place :: (← resolveAll rest)

def update (op : BinaryOp) (target : Expr) (value : Step Value) : Step Flow := do
  let place ← resolve p call target
  let current ← place.read
  place.write (← Exec.ofExcept (Value.binary op current (← value)))
  return .next

def assign (targets : List Expr) (op : AssignOp) (values : List Expr) : Step Flow := do
  match op, targets, values with
  | .compound op, [target], [value] => update p call op target (eval p call value)
  | .compound _, [_], _ => Exec.fail (.unsupported .compoundValues)
  | .compound _, _, _ => Exec.fail (.unsupported .compoundTargets)
  | .define, targets, values =>
    defineTargets targets (← evalFor p call targets.length values)
    return .next
  | .assign, targets, values =>
    let places ← resolveAll p call targets
    writeAll places (← evalFor p call targets.length values)
    return .next

def declare (names : List String) (type : Option TypeExpr) (values : List Expr) : Step Flow := do
  let vs ←
    if values.isEmpty then pure (List.replicate names.length (type.elim .nil p.zero))
    else evalFor p call names.length values
  defineAll names vs
  return .next

def bindItem (define : Bool) (v : Value) : Option Expr → Step Unit
  | none => return ()
  | some target =>
    match define, target.ident? with
    | true, some name => Step.define name v
    | _, _ => do (← resolve p call target).write v

def matchesTag (tag : Value) : List Expr → Step Bool
  | [] => return false
  | e :: rest => do
    if (← eval p call e).equal tag then return true else matchesTag tag rest

def chooseCase (tag : Value) (cases : List Case) : Step (Option Nat) :=
  go 0 cases
where
  go (position : Nat) : List Case → Step (Option Nat)
    | [] => return cases.findIdx? (·.values.isEmpty)
    | c :: rest => do
      if ← matchesTag p call tag c.values then return some position else go (position + 1) rest

variable (rounds : Nat)

mutual

def exec : Stmt → Step Flow
  | .empty _ => return .next
  | .expr e => do
    let _ ← reading (Exec.evalAll p call · e)
    return .next
  | .assign _ targets op values => assign p call targets op values
  | .step _ target increment =>
    update p call (if increment then .add else .sub) target (pure (.int 1))
  | .var _ names type values => declare p call names type values
  | .block body => execBlock body
  | .ifElse _ init cond body orElse => inScope do
    let _ ← execOption init
    if ← reading (Exec.check p call · cond) then execBlock body else execOption orElse
  | .forLoop _ init cond post body => inScope do
    let _ ← execOption init
    let check : Step Bool :=
      match cond with
      | none => pure true
      | some cond => reading (Exec.check p call · cond)
    loop check (execBlock body) (execOption post) rounds
  | .range _ key value define iterable body => do
    let items ← itemsOf (← eval p call iterable)
    let round : Value × Value → Step Flow := fun item => inScope do
      bindItem p call define item.1 key
      bindItem p call define item.2 value
      execBlock body
    forEach round items
  | .switch _ init tag cases => inScope do
    let _ ← execOption init
    let tag ← match tag with
      | none => pure (.bool true)
      | some tag => eval p call tag
    match (← chooseCase p call tag cases).bind ((caseBodies cases)[·]?) with
    | none => return .next
    | some body =>
      match ← body with
      | .breaks => return .next
      | flow => return flow
  | .ret _ [e] => do return .returns (← reading (Exec.evalAll p call · e))
  | .ret _ es => do return .returns (← reading fun frame => Exec.all (Exec.actions p call frame es))
  | .breakLoop _ => return .breaks
  | .continueLoop _ => return .continues

def execOption : Option Stmt → Step Flow
  | none => return .next
  | some s => exec s

def execBlock : Block → Step Flow
  | .mk _ statements => inScope (sequence (steps statements))

def steps : List Stmt → List (Step Flow)
  | [] => []
  | s :: rest => exec s :: steps rest

def caseBodies : List Case → List (Step Flow)
  | [] => []
  | .mk _ _ body :: rest => inScope (sequence (steps body)) :: caseBodies rest

end

end

end Step

end FieldAccess
