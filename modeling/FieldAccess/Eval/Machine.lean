import FieldAccess.Decimal.Layout
import FieldAccess.Eval.Table
import FieldAccess.Text.Quoted

namespace FieldAccess

structure Record where
  id : String
  collection : String
  data : Table String := .empty
  expand : Table String := .empty
deriving Inhabited

structure Object where
  type : String
  fields : Table String
deriving Inhabited

def recordField : String := "Record"

structure Machine where
  maps : Array (Table MapKey) := #[]
  records : Array Record := #[]
  objects : Array Object := #[]
  globals : Table String := .empty
deriving Inhabited

namespace Machine

def map (m : Machine) (address : Nat) : Table MapKey :=
  (m.maps[address]?).getD .empty

def record (m : Machine) (address : Nat) : Record :=
  (m.records[address]?).getD default

def object (m : Machine) (address : Nat) : Object :=
  (m.objects[address]?).getD default

def setMap (m : Machine) (address : Nat) (t : Table MapKey) : Machine :=
  { m with maps := m.maps.setIfInBounds address t }

def setRecord (m : Machine) (address : Nat) (r : Record) : Machine :=
  { m with records := m.records.setIfInBounds address r }

def setObject (m : Machine) (address : Nat) (o : Object) : Machine :=
  { m with objects := m.objects.setIfInBounds address o }

def setGlobal (m : Machine) (name : String) (v : Value) : Machine :=
  { m with globals := m.globals.insert name v }

def allocMap (t : Table MapKey) : StateM Machine Value :=
  modifyGet fun m => (.map m.maps.size, { m with maps := m.maps.push t })

def allocRecord (r : Record) : StateM Machine Value :=
  modifyGet fun m => (.record m.records.size, { m with records := m.records.push r })

def allocObject (o : Object) : StateM Machine Value :=
  modifyGet fun m => (.object m.objects.size, { m with objects := m.objects.push o })

def allocWrapper (entity : String) (r : Record) : StateM Machine Value := do
  let record ← allocRecord r
  allocObject ⟨entity, .ofList [(recordField, record)]⟩

def recordOf? (m : Machine) : Value → Option Nat
  | .record address => some address
  | .object address =>
    match (m.object address).fields.get? recordField with
    | some (.record address) => some address
    | _ => none
  | _ => none

def field? (m : Machine) (v : Value) (name : String) : Option Value :=
  match v with
  | .object address => (m.object address).fields.get? name
  | _ => none

def typeName (m : Machine) : Value → String
  | .nil => "nil"
  | .bool _ => "bool"
  | .int _ => "int"
  | .float _ => "float64"
  | .str _ => "string"
  | .slice _ => "slice"
  | .map _ => "map"
  | .record _ => "*core.Record"
  | .object address => "*" ++ (m.object address).type

mutual

def render (m : Machine) : Value → String
  | .nil => "nil"
  | .bool value => toString value
  | .int value => toString value.toInt
  | .float value => Decimal.plain value
  | .str text => Text.quote text
  | .slice items => "[" ++ " ".intercalate (m.renderItems items) ++ "]"
  | .map address => "map[" ++ toString (m.map address).size ++ " entries]"
  | .record address => "&Record\x7b" ++ (m.record address).id ++ "\x7d"
  | .object address => "&" ++ (m.object address).type ++ "\x7b...\x7d"

def renderItems (m : Machine) : List Value → List String
  | [] => []
  | item :: rest => m.render item :: m.renderItems rest

end

theorem record_setRecord (m : Machine) (a b : Nat) (r : Record) (h : a < m.records.size) :
    (m.setRecord a r).record b = if b = a then r else m.record b := by
  by_cases hb : b = a
  · subst hb
    simp [record, setRecord, h]
  · simp [record, setRecord, hb, Ne.symm hb]

theorem map_setMap (m : Machine) (a b : Nat) (t : Table MapKey) (h : a < m.maps.size) :
    (m.setMap a t).map b = if b = a then t else m.map b := by
  by_cases hb : b = a
  · subst hb
    simp [map, setMap, h]
  · simp [map, setMap, hb, Ne.symm hb]

theorem object_setObject (m : Machine) (a b : Nat) (o : Object) (h : a < m.objects.size) :
    (m.setObject a o).object b = if b = a then o else m.object b := by
  by_cases hb : b = a
  · subst hb
    simp [object, setObject, h]
  · simp [object, setObject, hb, Ne.symm hb]

end Machine

end FieldAccess
