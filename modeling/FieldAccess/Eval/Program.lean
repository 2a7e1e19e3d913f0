import FieldAccess.Eval.Value
import FieldAccess.Syntax.Decl

namespace FieldAccess

inductive TypeMeaning where
  | defined (underlying : TypeExpr)
  | struct (fields : List StructField)

structure Program where
  declarations : List Decl

namespace Program

variable (p : Program)

-- Of two declarations of a name the later counts.
def last? {α : Type} (f : Decl → Option α) : Option α :=
  p.declarations.reverse.findSome? f

def function? (name : String) : Option FuncDecl :=
  p.last? fun d => d.func?.filter fun f => f.receiverEntity?.isNone && f.name = name

def method? (type name : String) : Option FuncDecl :=
  p.last? fun d => d.func?.filter fun f => f.receiverEntity? = some type && f.name = name

def hasMethod (type name : String) : Bool :=
  (p.method? type name).isSome

def type? (name : String) : Option TypeMeaning :=
  p.last? fun
    | .defined n underlying => if n = name then some (.defined underlying) else none
    | .struct n fields => if n = name then some (.struct fields) else none
    | _ => none

def underlying? (name : String) : Option TypeExpr :=
  match p.type? name with
  | some (.defined underlying) => some underlying
  | _ => none

def isWrapper (name : String) : Bool :=
  match p.type? name with
  | some (.struct fields) => fields.any (·.name.isNone)
  | _ => false

def basicZero? : TypeExpr → Option Value
  | .slice _ => some (.slice [])
  | type =>
    if type = .string then some (.str "")
    else if type = .bool then some (.bool false)
    else if type.isFloat then some (.float 0)
    else if type.isInteger then some (.int 0)
    else none

def zeroWithin (type : TypeExpr) (steps : Nat) : Value :=
  match basicZero? type, type, steps with
  | some v, _, _ => v
  | none, .named name, steps + 1 =>
    match p.underlying? name with
    | some underlying => zeroWithin underlying steps
    | none => .nil
  | none, _, _ => .nil

-- The value that variables of a type start with. No chain of type names is longer than the program.
def zero (type : TypeExpr) : Value :=
  p.zeroWithin type p.declarations.length

end Program

end FieldAccess
