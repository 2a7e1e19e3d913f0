
namespace FieldAccess

inductive MapKey where
  | bool (value : Bool)
  | int (value : Int64)
  | str (text : String)
deriving DecidableEq, Repr

-- Slices are values: assigning one copies it. Maps, records and objects are known by their addresses.
inductive Value where
  | nil
  | bool (value : Bool)
  | int (value : Int64)
  | float (value : Float)
  | str (text : String)
  | slice (items : List Value)
  | map (address : Nat)
  | record (address : Nat)
  | object (address : Nat)
deriving Inhabited

def MapKey.toValue : MapKey → Value
  | bool value => .bool value
  | int value => .int value
  | str text => .str text

namespace Value

def key? : Value → Option MapKey
  | bool value => some (.bool value)
  | int value => some (.int value)
  | str text => some (.str text)
  | _ => none

def int? : Value → Option Int64
  | int value => some value
  | _ => none

def number? : Value → Option Float
  | float value => some value
  | int value => some value.toFloat
  | _ => none

def str? : Value → Option String
  | str text => some text
  | _ => none

def bool? : Value → Option Bool
  | bool value => some value
  | _ => none

def sameAddress : Value → Value → Bool
  | map a, map b | record a, record b | object a, object b => a = b
  | _, _ => false

mutual

-- Numbers are equal by what they count, slices by their items; an empty slice equals `nil`.
def equal : Value → Value → Bool
  | nil, nil => true
  | bool a, bool b => a = b
  | int a, int b => a = b
  | float a, float b => a == b
  | float a, int b => a == b.toFloat
  | int a, float b => a.toFloat == b
  | str a, str b => a = b
  | slice as, slice bs => equalItems as bs
  | slice items, nil | nil, slice items => items.isEmpty
  | a, b => a.sameAddress b

def equalItems : List Value → List Value → Bool
  | [], [] => true
  | a :: as, b :: bs => equal a b && equalItems as bs
  | _, _ => false

end

theorem key?_toValue (k : MapKey) : k.toValue.key? = some k := by
  cases k <;> rfl

theorem toValue_of_key? {v : Value} {k : MapKey} (h : v.key? = some k) : k.toValue = v := by
  cases v <;> simp_all [key?] <;> subst h <;> rfl

end Value

end FieldAccess
