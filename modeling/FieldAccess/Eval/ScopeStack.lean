import FieldAccess.Eval.Call

namespace FieldAccess

structure Interpreter where
  machine : Machine
  -- The scopes of the call that runs, the innermost first.
  scopes : List (Table String)
  -- How many calls are under way.
  depth : Nat
  -- The most calls that have been under way at once.
  peak : Nat

namespace Interpreter

def frame (s : Interpreter) : Frame :=
  ⟨s.scopes⟩

def openScope (s : Interpreter) : Interpreter :=
  { s with scopes := .empty :: s.scopes }

def closeScope (s : Interpreter) : Interpreter :=
  { s with scopes := s.scopes.tail }

def enter (parameters : Table String) (s : Interpreter) : Interpreter :=
  { s with scopes := [parameters], depth := s.depth + 1, peak := max s.peak (s.depth + 1) }

def leave (saved : List (Table String)) (s : Interpreter) : Interpreter :=
  { s with scopes := saved, depth := s.depth - 1 }

end Interpreter

-- What a fault leaves of the state, scopes and depth included, stays.
abbrev Running :=
  EStateM ExecFault Interpreter

namespace Running

variable {α : Type}

-- What only reads and changes the machine.
def onMachine (x : Exec α) : Running α := fun s =>
  match x s.machine with
  | .ok a m => .ok a { s with machine := m }
  | .error fault m => .error fault { s with machine := m }

instance : MonadLift Exec Running :=
  ⟨onMachine⟩

-- A single access to the variables.
def onFrame (x : Step α) : Running α := fun s =>
  match x s.frame s.machine with
  | .ok (a, f) m => .ok a { s with machine := m, scopes := f.scopes }
  | .error fault m => .error fault { s with machine := m }

-- Changes the state after a part, however this ends.
def closing (x : Running α) (close : Interpreter → Interpreter) : Running α := fun s =>
  match x s with
  | .ok a s' => .ok a (close s')
  | .error fault s' => .error fault (close s')

-- Runs a part in a scope of its own.
def inScope (x : Running α) : Running α := do
  modify Interpreter.openScope
  x.closing Interpreter.closeScope

-- Runs the body of a call while the caller waits.
def within (parameters : Table String) (body : Running α) : Running α := do
  let saved := (← get).scopes
  modify (Interpreter.enter parameters)
  body.closing (Interpreter.leave saved)

end Running

abbrev Running.Handler :=
  FuncDecl → Option Value → List Value → Running (List Value)

structure Running.Entry where
  written : Option Expr
  key : Running Value
  value : Running Value

namespace Running

def all : List (Running Value) → Running (List Value)
  | [] => return []
  | x :: rest => do
    let v ← x
    return v :: (← all rest)

def sliceLiteral (entries : List Entry) : Running Value := do
  return .slice (← all (entries.map (·.value)))

def mapEntries (t : Table MapKey) : List Entry → Running (Table MapKey)
  | [] => return t
  | entry :: rest => do
    let _ ← Exec.orFail (.type .missingKey) entry.written
    let key ← Exec.mapKey (← entry.key)
    mapEntries (t.insert key (← entry.value)) rest

def mapLiteral (entries : List Entry) : Running Value := do
  Exec.ofState (Machine.allocMap (← mapEntries .empty entries))

def structFields (t : Table String) : List Entry → Running (Table String)
  | [] => return t
  | entry :: rest => do
    let name ← Exec.orFail (.unsupported .positionalStruct) (entry.written.bind (·.ident?))
    structFields (t.insert name (← entry.value)) rest

def structLiteral (p : Program) (type : TypeExpr) (entries : List Entry) : Running Value := do
  let name := type.namedTarget?.getD ""
  let start : Table String := if p.isWrapper name then .ofList [(recordField, .nil)] else .empty
  Exec.ofState (Machine.allocObject ⟨name, ← structFields start entries⟩)

def binding? (name : String) : Running (Option Value) := do
  let s ← get
  return (s.frame.get? name).or (s.machine.globals.get? name)

section

variable (p : Program) (call : Handler)

def dispatchMethod (receiver : Value) (name : String) (args : List Value) :
    Running (List Value) := do
  match receiver with
  | .object address =>
    let m := (← get).machine
    match p.method? (m.object address).type name, m.recordOf? receiver with
    | some f, _ => call f (some receiver) args
    | none, some record => Exec.recordMethod record name args
    | none, none => Exec.fail (.noMember receiver name)
  | .record address => Exec.recordMethod address name args
  | .nil => Exec.fail .nilDereference
  | v => Exec.fail (.noMember v name)

def callBuiltin (b : Builtin) (written : List Expr) (args : List (Running Value)) :
    Running Value := do
  match b, written, args with
  | .len, _, [x] => Exec.length (← x)
  | .panic, _, [x] => Exec.fail (.panicked (← x))
  | .convert type, _, [x] => Exec.ofExcept (Value.convert type (← x))
  | .append, _, x :: rest =>
    let items ← Exec.appendable (← x)
    return .slice (items ++ (← all rest))
  | .make, .typeOperand _ type :: _, _ :: sizes =>
    match type with
    | .slice element =>
      let size ← match sizes with
        | [] => pure 0
        | x :: _ => pure ((← x).int?.getD 0)
      return .slice (List.replicate size.toInt.toNat (p.zero element))
    | .map _ _ => Exec.ofState (Machine.allocMap .empty)
    | type => Exec.failType (.notMakeable type)
  | _, _, _ => Exec.failType .makeOperand

def callNamed (name : String) (written : List Expr) (args : List (Running Value)) :
    Running (List Value) := do
  let declared := (← binding? name).isSome || (p.function? name).isSome
  match if declared then none else Builtin.of? name written.length with
  | some b => return [← callBuiltin p b written args]
  | none =>
    match p.underlying? name, args with
    | some underlying, [x] => return [← Exec.ofExcept (Value.convert underlying.render (← x))]
    | some _, _ => Exec.failType (.conversionCount name)
    | none, args =>
      let f ← Exec.orFail (.undefined name) (p.function? name)
      call f none (← all args)

def callResults (callee : Expr) (receiver : Running Value) (written : List Expr)
    (args : List (Running Value)) : Running (List Value) := do
  match callee with
  | .select _ _ name =>
    let receiver ← receiver
    dispatchMethod p call receiver name (← all args)
  | .ident _ name => callNamed p call name written args
  | _ => Exec.fail (.unsupported .indirectCall)

mutual

def eval : Expr → Running Value
  | .ident _ name => do Exec.orFail (.undefined name) (← binding? name)
  | .literal _ value => return Exec.literalValue value
  | .select _ base member => do Exec.select (← eval base) member
  | .call _ callee _ args => do
    Exec.oneResult (← callResults p call callee (receiver callee) args (actions args))
  | .index _ base i => do
    let base ← eval base
    Exec.item base (← eval i)
  | .binary _ .and left right => do
    if ← Exec.truth (← eval left) then return .bool (← Exec.truth (← eval right))
    else return .bool false
  | .binary _ .or left right => do
    if ← Exec.truth (← eval left) then return .bool true
    else return .bool (← Exec.truth (← eval right))
  | .binary _ op left right => do
    let left ← eval left
    Exec.ofExcept (Value.binary op left (← eval right))
  | .unary _ op operand => do Exec.ofExcept (Value.unary op (← eval operand))
  | .paren _ inner => eval inner
  | .composite _ type elements =>
    match type with
    | .slice _ => sliceLiteral (entries elements)
    | .map _ _ => mapLiteral (entries elements)
    | type => structLiteral p type (entries elements)
  | .typeOperand _ type => Exec.failType (.notExpression type)

def receiver : Expr → Running Value
  | .select _ base _ => eval base
  | _ => Exec.fail (.unsupported .indirectCall)

def actions : List Expr → List (Running Value)
  | [] => []
  | e :: rest => eval e :: actions rest

def entries : List Element → List Entry
  | [] => []
  | .positional value :: rest =>
    ⟨none, Exec.fail (.type .missingKey), eval value⟩ :: entries rest
  | .keyed key value :: rest => ⟨some key, eval key, eval value⟩ :: entries rest

end

def evalAll : Expr → Running (List Value)
  | .call _ callee _ args =>
    callResults p call callee (receiver p call callee) args (actions p call args)
  | .index _ base i => do
    let base ← eval p call base
    Exec.itemAndPresence base (← eval p call i)
  | e => return [← eval p call e]

def evalFor (count : Nat) : List Expr → Running (List Value)
  | [e] => do
    if 1 < count then
      let vs ← evalAll p call e
      if vs.length = count then return vs
      else Exec.failType (.valueCount count vs.length)
    else return [← eval p call e]
  | es => all (actions p call es)

def check (e : Expr) : Running Bool := do
  Exec.truth (← eval p call e)

def resolve : Expr → Running Place
  | .ident _ name => return if name = "_" then .blank else .named name
  | .paren _ inner => resolve inner
  | .select _ base member => do
    match ← eval p call base with
    | .object address => return .field address member
    | .nil => Exec.fail .nilDereference
    | v => Exec.fail (.noMember v member)
  | .index _ base i => do
    let container ← if base.isPlaceLike then resolve base else .temporary <$> eval p call base
    return .item container (← eval p call i)
  | _ => Exec.fail (.unsupported .assignmentTarget)

end

def define (name : String) (v : Value) : Running Unit :=
  onFrame (Step.define name v)

def read (place : Place) : Running Value :=
  onFrame place.read

def write (place : Place) (v : Value) : Running Unit :=
  onFrame (place.write v)

def defineAll : List String → List Value → Running Unit
  | name :: names, v :: vs => do
    define name v
    defineAll names vs
  | _, _ => return ()

def defineTargets : List Expr → List Value → Running Unit
  | target :: targets, v :: vs => do
    define (← Exec.orFail (.type .definedTarget) target.ident?) v
    defineTargets targets vs
  | _, _ => return ()

def writeAll : List Place → List Value → Running Unit
  | place :: places, v :: vs => do
    write place v
    writeAll places vs
  | _, _ => return ()

def loop (cond : Running Bool) (body post : Running Flow) : Nat → Running Flow
  | 0 => Exec.fail .roundLimit
  | rounds + 1 => do
    if ← cond then
      match ← body with
      | .breaks => return .next
      | .returns vs => return .returns vs
      | .next | .continues =>
        let _ ← post
        loop cond body post rounds
    else return .next

def forEach (round : α → Running Flow) : List α → Running Flow
  | [] => return .next
  | a :: rest => do
    match ← round a with
    | .breaks => return .next
    | .returns vs => return .returns vs
    | .next | .continues => forEach round rest

def sequence : List (Running Flow) → Running Flow
  | [] => return .next
  | x :: rest => do
    match ← x with
    | .next => sequence rest
    | flow => return flow

section

variable (p : Program) (call : Handler)

def resolveAll : List Expr → Running (List Place)
  | [] => return []
  | e :: rest => do
    let place ← resolve p call e
    return place :: (← resolveAll rest)

def update (op : BinaryOp) (target : Expr) (value : Running Value) : Running Flow := do
  let place ← resolve p call target
  let current ← read place
  write place (← Exec.ofExcept (Value.binary op current (← value)))
  return .next

def assign (targets : List Expr) (op : AssignOp) (values : List Expr) : Running Flow := do
  match op, targets, values with
  | .compound op, [target], [value] => update p call op target (eval p call value)
  | .compound _, [_], _ => Exec.fail (.unsupported .compoundValues)
  | .compound _, _, _ => Exec.fail (.unsupported .compoundTargets)
  | .define, targets, values =>
    defineTargets targets (← evalFor p call targets.length values)
    return .next
  | .assign, targets, values =>
    let places ← resolveAll p call targets
    writeAll places (← evalFor p call targets.length values)
    return .next

def declare (names : List String) (type : Option TypeExpr) (values : List Expr) :
    Running Flow := do
  let vs ←
    if values.isEmpty then pure (List.replicate names.length (type.elim .nil p.zero))
    else evalFor p call names.length values
  defineAll names vs
  return .next

def bindItem (define : Bool) (v : Value) : Option Expr → Running Unit
  | none => return ()
  | some target =>
    match define, target.ident? with
    | true, some name => Running.define name v
    | _, _ => do write (← resolve p call target) v

def matchesTag (tag : Value) : List Expr → Running Bool
  | [] => return false
  | e :: rest => do
    if (← eval p call e).equal tag then return true else matchesTag tag rest

def chooseCase (tag : Value) (cases : List Case) : Running (Option Nat) :=
  go 0 cases
where
  go (position : Nat) : List Case → Running (Option Nat)
    | [] => return cases.findIdx? (·.values.isEmpty)
    | c :: rest => do
      if ← matchesTag p call tag c.values then return some position else go (position + 1) rest

variable (rounds : Nat)

mutual

def exec : Stmt → Running Flow
  | .empty _ => return .next
  | .expr e => do
    let _ ← evalAll p call e
    return .next
  | .assign _ targets op values => assign p call targets op values
  | .step _ target increment =>
    update p call (if increment then .add else .sub) target (pure (.int 1))
  | .var _ names type values => declare p call names type values
  | .block body => execBlock body
  | .ifElse _ init cond body orElse => inScope do
    let _ ← execOption init
    if ← check p call cond then execBlock body else execOption orElse
  | .forLoop _ init cond post body => inScope do
    let _ ← execOption init
    let check : Running Bool :=
      match cond with
      | none => pure true
      | some cond => check p call cond
    loop check (execBlock body) (execOption post) rounds
  | .range _ key value define iterable body => do
    let items ← Step.itemsOf (← eval p call iterable)
    let round : Value × Value → Running Flow := fun item => inScope do
      bindItem p call define item.1 key
      bindItem p call define item.2 value
      execBlock body
    forEach round items
  | .switch _ init tag cases => inScope do
    let _ ← execOption init
    let tag ← match tag with
      | none => pure (.bool true)
      | some tag => eval p call tag
    match (← chooseCase p call tag cases).bind ((caseBodies cases)[·]?) with
    | none => return .next
    | some body =>
      match ← body with
      | .breaks => return .next
      | flow => return flow
  | .ret _ [e] => do return .returns (← evalAll p call e)
  | .ret _ es => do return .returns (← all (actions p call es))
  | .breakLoop _ => return .breaks
  | .continueLoop _ => return .continues

def execOption : Option Stmt → Running Flow
  | none => return .next
  | some s => exec s

def execBlock : Block → Running Flow
  | .mk _ statements => inScope (sequence (steps statements))

def steps : List Stmt → List (Running Flow)
  | [] => []
  | s :: rest => exec s :: steps rest

def caseBodies : List Case → List (Running Flow)
  | [] => []
  | .mk _ _ body :: rest => inScope (sequence (steps body)) :: caseBodies rest

end

end

variable (p : Program) (rounds : Nat)

-- Calls may nest as long as the depth allows. The number that the recursion is on never decides: it
-- is large enough for the depth to be reached first.
def invoke : Nat → Handler
  | nested, f, receiver, args => do
    if args.length ≠ f.params.length then
      Exec.failType (.argumentCount f.name f.params.length args.length)
    else if Program.maxDepth ≤ (← get).depth then Exec.fail .callDepth
    else match nested with
    | 0 => Exec.fail .roundLimit
    | nested + 1 =>
      let body := sequence (steps p (invoke nested) rounds f.body.statements)
      match ← within (Program.parameters f receiver args) body with
      | .returns vs => return vs
      | _ => return []

def callMethod (receiver : Value) (name : String) (args : List Value) : Running (List Value) :=
  dispatchMethod p (invoke p rounds Program.maxDepth) receiver name args

def callFunction (name : String) (args : List Value) : Running (List Value) := do
  invoke p rounds Program.maxDepth (← Exec.orFail (.undefined name) (p.function? name)) none args

end Running

end FieldAccess
