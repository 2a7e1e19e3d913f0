import FieldAccess.Decimal.Reader
import FieldAccess.Eval.Fault

namespace FieldAccess

namespace Record

def text (m : Machine) : Value → String
  | .str text => text
  | .nil => ""
  | v => m.render v

def integer : Value → Int64
  | .int a => a
  | .float a => a.toInt64
  | .str text => (Decimal.int64? text.toList).getD 0
  | _ => 0

def float : Value → Float
  | .str text => (Decimal.float? text.toList).getD 0
  | v => v.number?.getD 0

def texts : Value → List Value
  | .slice items => items
  | .str text => if text.isEmpty then [] else [.str text]
  | _ => []

def expandedOne : Option Value → Value
  | some (.record address) => .record address
  | some (.slice items) => items.head?.getD .nil
  | _ => .nil

def expandedAll : Option Value → List Value
  | some (.record address) => [.record address]
  | some (.slice items) => items
  | _ => []

def get? (m : Machine) (r : Record) (name key : String) : Option Value :=
  let stored := (r.data.get? key).getD .nil
  match name with
  | "Get" | "GetRaw" | "GetDateTime" => some stored
  | "GetString" => some (.str (text m stored))
  | "GetInt" => some (.int (integer stored))
  | "GetFloat" => some (.float (float stored))
  | "GetBool" => some (.bool (stored.bool?.getD false))
  | "GetStringSlice" => some (.slice (texts stored))
  | "ExpandedOne" => some (expandedOne (r.expand.get? key))
  | "ExpandedAll" => some (.slice (expandedAll (r.expand.get? key)))
  | _ => none

def expansionMap (r : Record) : Table MapKey :=
  ⟨r.expand.entries.map fun (key, v) => (.str key, v)⟩

def expansionOf (t : Table MapKey) : Table String :=
  .ofList (t.entries.filterMap fun | (.str key, v) => some (key, v) | _ => none)

end Record

namespace Exec

def textArgument (args : List Value) (position : Nat) : Exec String :=
  orFail (.type (.stringArgument position)) (args[position]?.bind (·.str?))

-- Calls a method of a record. The last argument of a setter is the value that it sets.
def recordMethod (address : Nat) (name : String) (args : List Value) : Exec (List Value) := do
  match name with
  | "Set" | "SetRaw" =>
    let key ← textArgument args 0
    let v := args.getLast?.getD .nil
    modify fun m =>
      let r := m.record address
      m.setRecord address { r with data := r.data.insert key v }
    return []
  | "SetExpand" =>
    modify fun m =>
      let expand := match args.getLast? with
        | some (.map a) => Record.expansionOf (m.map a)
        | _ => .empty
      m.setRecord address { m.record address with expand }
    return []
  | "Expand" => return [← modifyGet fun m => Machine.allocMap (m.record address).expansionMap m]
  | _ =>
    let key ← textArgument args 0
    let m ← get
    return [← orFail (.noMember (.record address) name) (Record.get? m (m.record address) name key)]

def recordProperty (address : Nat) (name : String) : Exec Value :=
  if name = "Id" then return .str ((← get).record address).id
  else fail (.noMember (.record address) name)

end Exec

end FieldAccess
