import FieldAccess.Eval.Frame
import FieldAccess.Eval.Operator
import FieldAccess.Eval.Program
import FieldAccess.Eval.RecordStore

namespace FieldAccess

abbrev CallHandler :=
  FuncDecl → Option Value → List Value → Exec (List Value)

inductive Builtin where
  | len
  | make
  | append
  | panic
  | convert (type : String)
deriving DecidableEq, Repr

namespace Builtin

def conversionNames : List String :=
  ["int", "int8", "int16", "int32", "int64", "float32", "float64", "string", "bool"]

def of? (name : String) (count : Nat) : Option Builtin :=
  if name = "len" && count = 1 then some len
  else if name = "make" && 0 < count then some make
  else if name = "append" && 0 < count then some append
  else if name = "panic" && count = 1 then some panic
  else if conversionNames.contains name && count = 1 then some (convert name)
  else none

end Builtin

structure LiteralEntry where
  written : Option Expr
  key : Exec Value
  value : Exec Value

namespace Exec

def oneResult : List Value → Exec Value
  | [v] => return v
  | vs => failType (.resultCount vs.length)

def truth (v : Value) : Exec Bool :=
  orFail (.type .condition) v.bool?

def mapKey (v : Value) : Exec MapKey :=
  orFail (.type (.mapKey v)) v.key?

def itemAt (items : List Value) (index : Value) : Exec Value := do
  let i ← orFail (.type .indexKind) index.int?
  orFail (.indexOutOfRange i items.length)
    ((Value.position? i items.length).bind (items[·]?))

-- The value of `container[index]`; what a map lacks is `nil`, and so is everything in `nil`.
def item (container index : Value) : Exec Value := do
  match container with
  | .slice items => itemAt items index
  | .map address =>
    let key ← mapKey index
    return (((← get).map address).get? key).getD .nil
  | .nil => return .nil
  | v => failType (.notIndexable v)

def itemAndPresence (container index : Value) : Exec (List Value) := do
  match container with
  | .map address =>
    let key ← mapKey index
    let found := ((← get).map address).get? key
    return [found.getD .nil, .bool found.isSome]
  | v => return [← item v index]

-- The value of `base.member`; an object without the member asks the record that it holds.
def select (base : Value) (member : String) : Exec Value := do
  match base with
  | .object address =>
    let m ← get
    match (m.object address).fields.get? member, m.recordOf? base with
    | some v, _ => return v
    | none, some record => recordProperty record member
    | none, none => fail (.noMember base member)
  | .record address => recordProperty address member
  | .nil => fail .nilDereference
  | v => fail (.noMember v member)

def all : List (Exec Value) → Exec (List Value)
  | [] => return []
  | x :: rest => do
    let v ← x
    return v :: (← all rest)

def length (v : Value) : Exec Value := do
  match v with
  | .slice items => return .int (Int64.ofNat items.length)
  | .str text => return .int (Int64.ofNat text.utf8ByteSize)
  | .map address => return .int (Int64.ofNat ((← get).map address).size)
  | .nil => return .int 0
  | v => failType (.noLength v)

def appendable : Value → Exec (List Value)
  | .slice items => return items
  | .nil => return []
  | v => failType (.notAppendable v)

def sliceLiteral (entries : List LiteralEntry) : Exec Value := do
  return .slice (← all (entries.map (·.value)))

def mapEntries (t : Table MapKey) : List LiteralEntry → Exec (Table MapKey)
  | [] => return t
  | entry :: rest => do
    let _ ← orFail (.type .missingKey) entry.written
    let key ← mapKey (← entry.key)
    mapEntries (t.insert key (← entry.value)) rest

def mapLiteral (entries : List LiteralEntry) : Exec Value := do
  ofState (Machine.allocMap (← mapEntries .empty entries))

def structFields (t : Table String) : List LiteralEntry → Exec (Table String)
  | [] => return t
  | entry :: rest => do
    let name ← orFail (.unsupported .positionalStruct) (entry.written.bind (·.ident?))
    structFields (t.insert name (← entry.value)) rest

def structLiteral (p : Program) (type : TypeExpr) (entries : List LiteralEntry) : Exec Value := do
  let name := type.namedTarget?.getD ""
  let start : Table String := if p.isWrapper name then .ofList [(recordField, .nil)] else .empty
  ofState (Machine.allocObject ⟨name, ← structFields start entries⟩)

def literalValue : Literal → Value
  | .int a => .int a
  | .float a => .float a
  | .string text => .str text
  | .bool b => .bool b
  | .nil => .nil

section

variable (p : Program) (call : CallHandler) (frame : Frame)

def binding? (name : String) : Exec (Option Value) := do
  return (frame.get? name).or ((← get).globals.get? name)

-- Calls a method of a value. An object without the method asks the record that it holds.
def callMethod (receiver : Value) (name : String) (args : List Value) : Exec (List Value) := do
  match receiver with
  | .object address =>
    let m ← get
    match p.method? (m.object address).type name, m.recordOf? receiver with
    | some f, _ => call f (some receiver) args
    | none, some record => recordMethod record name args
    | none, none => fail (.noMember receiver name)
  | .record address => recordMethod address name args
  | .nil => fail .nilDereference
  | v => fail (.noMember v name)

def callBuiltin (b : Builtin) (written : List Expr) (args : List (Exec Value)) : Exec Value := do
  match b, written, args with
  | .len, _, [x] => length (← x)
  | .panic, _, [x] => fail (.panicked (← x))
  | .convert type, _, [x] => ofExcept (Value.convert type (← x))
  | .append, _, x :: rest =>
    let items ← appendable (← x)
    return .slice (items ++ (← all rest))
  | .make, .typeOperand _ type :: _, _ :: sizes =>
    match type with
    | .slice element =>
      let size ← match sizes with
        | [] => pure 0
        | x :: _ => pure ((← x).int?.getD 0)
      return .slice (List.replicate size.toInt.toNat (p.zero element))
    | .map _ _ => ofState (Machine.allocMap .empty)
    | type => failType (.notMakeable type)
  | _, _, _ => failType .makeOperand

-- Calls a function by its name: a builtin one unless the name is declared, a conversion, or a
-- declared one.
def callNamed (name : String) (written : List Expr) (args : List (Exec Value)) :
    Exec (List Value) := do
  let declared := (← binding? frame name).isSome || (p.function? name).isSome
  match if declared then none else Builtin.of? name written.length with
  | some b => return [← callBuiltin p b written args]
  | none =>
    match p.underlying? name, args with
    | some underlying, [x] => return [← ofExcept (Value.convert underlying.render (← x))]
    | some _, _ => failType (.conversionCount name)
    | none, args =>
      let f ← orFail (.undefined name) (p.function? name)
      call f none (← all args)

def callResults (callee : Expr) (receiver : Exec Value) (written : List Expr)
    (args : List (Exec Value)) : Exec (List Value) := do
  match callee with
  | .select _ _ name =>
    let receiver ← receiver
    callMethod p call receiver name (← all args)
  | .ident _ name => callNamed p call frame name written args
  | _ => fail (.unsupported .indirectCall)

mutual

def eval : Expr → Exec Value
  | .ident _ name => do orFail (.undefined name) (← binding? frame name)
  | .literal _ value => return literalValue value
  | .select _ base member => do select (← eval base) member
  | .call _ callee _ args => do
    oneResult (← callResults p call frame callee (receiver callee) args (actions args))
  | .index _ base i => do
    let base ← eval base
    item base (← eval i)
  | .binary _ .and left right => do
    if ← truth (← eval left) then return .bool (← truth (← eval right))
    else return .bool false
  | .binary _ .or left right => do
    if ← truth (← eval left) then return .bool true
    else return .bool (← truth (← eval right))
  | .binary _ op left right => do
    let left ← eval left
    ofExcept (Value.binary op left (← eval right))
  | .unary _ op operand => do ofExcept (Value.unary op (← eval operand))
  | .paren _ inner => eval inner
  | .composite _ type elements =>
    match type with
    | .slice _ => sliceLiteral (entries elements)
    | .map _ _ => mapLiteral (entries elements)
    | type => structLiteral p type (entries elements)
  | .typeOperand _ type => failType (.notExpression type)

def receiver : Expr → Exec Value
  | .select _ base _ => eval base
  | _ => fail (.unsupported .indirectCall)

def actions : List Expr → List (Exec Value)
  | [] => []
  | e :: rest => eval e :: actions rest

def entries : List Element → List LiteralEntry
  | [] => []
  | .positional value :: rest => ⟨none, fail (.type .missingKey), eval value⟩ :: entries rest
  | .keyed key value :: rest => ⟨some key, eval key, eval value⟩ :: entries rest

end

def evalAll : Expr → Exec (List Value)
  | .call _ callee _ args =>
    callResults p call frame callee (receiver p call frame callee) args (actions p call frame args)
  | .index _ base i => do
    let base ← eval p call frame base
    itemAndPresence base (← eval p call frame i)
  | e => return [← eval p call frame e]

def evalFor (count : Nat) : List Expr → Exec (List Value)
  | [e] => do
    if 1 < count then
      let vs ← evalAll p call frame e
      if vs.length = count then return vs
      else failType (.valueCount count vs.length)
    else return [← eval p call frame e]
  | es => all (actions p call frame es)

def check (e : Expr) : Exec Bool := do
  truth (← eval p call frame e)

end

end Exec

end FieldAccess
