import FieldAccess.Syntax.Span

namespace FieldAccess

-- The options of an enumeration. Constant names are declared one for each label or not at all.
structure EnumSpec where
  typeName : String
  labels : List String
  constNames : Option (List String)
deriving DecidableEq, Repr

structure Field where
  name : String
  backingKey : Option String := none
  type : String
  enumeration : Option EnumSpec := none
  excluded : Bool := false
  span : Span := .nowhere
deriving DecidableEq, Repr

namespace Field

def key (f : Field) : String :=
  f.backingKey.getD f.name

def isRenamed (f : Field) : Bool :=
  f.key ≠ f.name

end Field

structure Entity where
  name : String
  collection : Option String := none
  fields : List Field
  span : Span := .nowhere
deriving DecidableEq, Repr

def Entity.field? (e : Entity) (name : String) : Option Field :=
  e.fields.find? (·.name = name)

structure Schema where
  entities : List Entity
deriving DecidableEq, Repr

namespace Schema

def entity? (s : Schema) (name : String) : Option Entity :=
  s.entities.find? (·.name = name)

def hasEntity (s : Schema) (name : String) : Bool :=
  (s.entity? name).isSome

end Schema

end FieldAccess
