import FieldAccess.Eval.Table

namespace FieldAccess

structure Frame where
  scopes : List (Table String)
deriving Inhabited

namespace Frame

def ofTable (t : Table String) : Frame :=
  ⟨[t]⟩

def get? (f : Frame) (name : String) : Option Value :=
  f.scopes.findSome? (·.get? name)

def assignIn (name : String) (v : Value) : List (Table String) → List (Table String)
  | [] => []
  | scope :: rest =>
    if scope.contains name then scope.insert name v :: rest else scope :: assignIn name v rest

def assign (f : Frame) (name : String) (v : Value) : Frame :=
  ⟨assignIn name v f.scopes⟩

-- Declares a variable in the innermost scope. The blank name declares nothing.
def define (f : Frame) (name : String) (v : Value) : Frame :=
  if name = "_" then f
  else match f.scopes with
  | [] => f
  | scope :: rest => ⟨scope.insert name v :: rest⟩

theorem define_blank (f : Frame) (v : Value) : f.define "_" v = f :=
  if_pos rfl

def push (f : Frame) : Frame :=
  ⟨.empty :: f.scopes⟩

def pop (f : Frame) : Frame :=
  ⟨f.scopes.tail⟩

@[simp]
theorem pop_push (f : Frame) : f.push.pop = f := rfl

@[simp]
theorem get?_push (f : Frame) (name : String) : f.push.get? name = f.get? name := by
  simp [get?, push, List.findSome?_cons]

end Frame

end FieldAccess
