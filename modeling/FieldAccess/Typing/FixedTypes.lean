import FieldAccess.Typing.Oracle

namespace FieldAccess

structure FixedTypes where
  names : List (String × TypeExpr)
  fields : List (String × String)
deriving DecidableEq, Repr

instance : TypeOracle FixedTypes where
  typeOf? types e := (e.ident?.bind (List.lookup · types.names)).map .known
  isField types base member :=
    base.namedTarget?.any fun entity => types.fields.contains (entity, member)
  declare types _ := types

end FieldAccess
