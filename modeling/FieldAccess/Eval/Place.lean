import FieldAccess.Eval.Expr

namespace FieldAccess

abbrev Step :=
  StateT Frame Exec

inductive Place where
  | blank
  | named (name : String)
  | field (object : Nat) (member : String)
  | item (container : Place) (index : Value)
  | temporary (value : Value)

def Expr.isPlaceLike : Expr → Bool
  | .ident _ _ | .paren _ _ | .select _ _ _ | .index _ _ _ => true
  | _ => false

namespace Place

def resolve (p : Program) (call : CallHandler) (frame : Frame) : Expr → Exec Place
  | .ident _ name => return if name = "_" then .blank else .named name
  | .paren _ inner => resolve p call frame inner
  | .select _ base member => do
    match ← Exec.eval p call frame base with
    | .object address => return .field address member
    | .nil => Exec.fail .nilDereference
    | v => Exec.fail (.noMember v member)
  | .index _ base i => do
    let container ←
      if base.isPlaceLike then resolve p call frame base
      else .temporary <$> Exec.eval p call frame base
    return .item container (← Exec.eval p call frame i)
  | _ => Exec.fail (.unsupported .assignmentTarget)

abbrev Access (α : Type) :=
  Value → Exec (α × Value)

def accessItem {α : Type} (index : Value) (f : Access α) : Access α
  | .slice items => do
    let i ← Exec.orFail (.type .indexKind) index.int?
    match Value.position? i items.length with
    | none => Exec.fail (.indexOutOfRange i items.length)
    | some position =>
      let (a, v) ← f (items[position]?.getD .nil)
      return (a, .slice (items.set position v))
  | .map address => do
    let key ← Exec.mapKey index
    let (a, v) ← f ((((← get).map address).get? key).getD .nil)
    modify fun m => m.setMap address ((m.map address).insert key v)
    return (a, .map address)
  | .nil => Exec.fail .nilMapWrite
  | v => Exec.failType (.notIndexable v)

-- Accesses a field. An object that lacks it gets it.
def accessField {α : Type} (address : Nat) (member : String) (f : Access α) : Exec α := do
  let set (v : Value) (m : Machine) : Machine :=
    let o := m.object address
    m.setObject address { o with fields := o.fields.insert member v }
  let current := (((← get).object address).fields.get? member).getD .nil
  modify (set current)
  let (a, v) ← f current
  modify (set v)
  return a

def accessName {α : Type} (name : String) (f : Access α) : Step α := do
  match (← get).get? name with
  | some current =>
    let (a, v) ← f current
    modify (·.assign name v)
    return a
  | none =>
    let globals := (← getThe Machine).globals
    let (a, v) ← f (← Exec.orFail (.undefined name) (globals.get? name))
    modifyThe Machine (·.setGlobal name v)
    return a

-- An item of a slice is written by writing the whole slice to the place that holds it, so that
-- writing reaches back to a variable, a field or a map.
def access {α : Type} (f : Access α) : Place → Step α
  | .blank => do return (← f .nil).1
  | .temporary v => do return (← f v).1
  | .named name => accessName name f
  | .field address member => accessField address member f
  | .item container index => access (accessItem index f) container

def read (place : Place) : Step Value :=
  place.access fun v => return (v, v)

def write (place : Place) (v : Value) : Step Unit :=
  place.access fun _ => return ((), v)

end Place

end FieldAccess
