import FieldAccess.Eval.Stmt

namespace FieldAccess

namespace Program

def maxDepth : Nat := 256

def parameters (f : FuncDecl) (receiver : Option Value) (args : List Value) : Table String :=
  .ofList ((f.receiver.toList.zip receiver.toList ++ f.params.zip args).map fun (param, v) =>
    (param.name, v))

section

variable (p : Program) (rounds : Nat)

def invoke : Nat → CallHandler
  | depth, f, receiver, args => do
    if args.length ≠ f.params.length then
      Exec.failType (.argumentCount f.name f.params.length args.length)
    else match depth with
    | 0 => Exec.fail .callDepth
    | depth + 1 =>
      let body := Step.sequence (Step.steps p (invoke depth) rounds f.body.statements)
      match ← body.run (.ofTable (parameters f receiver args)) with
      | (.returns vs, _) => return vs
      | _ => return []

def callMethod (receiver : Value) (name : String) (args : List Value) : Exec (List Value) :=
  Exec.callMethod p (p.invoke rounds maxDepth) receiver name args

def callFunction (name : String) (args : List Value) : Exec (List Value) := do
  p.invoke rounds maxDepth (← Exec.orFail (.undefined name) (p.function? name)) none args

def loadConstants (names : List String) : Exec Unit :=
  modify fun m =>
    names.zipIdx.foldl (fun m (name, i) => m.setGlobal name (.int (Int64.ofNat i))) m

def loadAllConstants : List Decl → Exec Unit
  | [] => return ()
  | .consts _ names :: rest => do
    loadConstants names
    loadAllConstants rest
  | _ :: rest => loadAllConstants rest

def loadVariables : List Decl → Exec Unit
  | [] => return ()
  | .var name value :: rest => do
    let v ← Exec.eval p (p.invoke rounds maxDepth) (.ofTable .empty) value
    modify (·.setGlobal name v)
    loadVariables rest
  | _ :: rest => loadVariables rest

def load : Exec Unit := do
  loadAllConstants p.declarations
  p.loadVariables rounds p.declarations

end

end Program

end FieldAccess
