import FieldAccess.Syntax.TypeExpr

namespace FieldAccess

inductive StaticType where
  | known (type : TypeExpr)
  | untypedInt
  | untypedFloat
  | untypedString
  | untypedBool
  | untypedNil
deriving DecidableEq, Repr

namespace StaticType

def known? : StaticType → Option TypeExpr
  | known type => some type
  | _ => none

def isUntyped : StaticType → Bool
  | known _ => false
  | _ => true

-- The type of a variable that starts with such a value. `nil` gives none.
def default? : StaticType → Option TypeExpr
  | known type => some type
  | untypedInt => some .int
  | untypedFloat => some .float64
  | untypedString => some .string
  | untypedBool => some .bool
  | untypedNil => none

def assignableTo (target : TypeExpr) : StaticType → Bool
  | known type => type = target || target = .any
  | untypedInt => target.isInteger || target.isFloat || target.isUserNamed
  | untypedFloat => target.isFloat || target.isUserNamed
  | untypedString => target = .string || target.isUserNamed
  | untypedBool => target = .bool || target.isUserNamed
  | untypedNil => target.isNilable

def render : StaticType → String
  | known type => type.render
  | untypedInt => "untyped int"
  | untypedFloat => "untyped float"
  | untypedString => "untyped string"
  | untypedBool => "untyped bool"
  | untypedNil => "untyped nil"

end StaticType

end FieldAccess
