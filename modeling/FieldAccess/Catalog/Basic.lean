import FieldAccess.Catalog.Classification
import FieldAccess.Catalog.Enumeration

namespace FieldAccess

inductive Access where
  | proxied (classification : Classification)
  | direct
  -- Not at all, since there is nothing to call.
  | unavailable
deriving DecidableEq, Repr

namespace Access

def classification? : Access → Option Classification
  | proxied c => some c
  | _ => none

def isProxied (a : Access) : Bool :=
  a.classification?.isSome

end Access

structure FieldInfo where
  entity : String
  field : Field
  access : Access
deriving DecidableEq, Repr

namespace FieldInfo

def name (info : FieldInfo) : String :=
  info.field.name

def key (info : FieldInfo) : String :=
  info.field.key

def accessor (info : FieldInfo) : String :=
  Naming.accessor info.field.name

def mutator (info : FieldInfo) : String :=
  Naming.mutator info.field.name

def declaredType? (info : FieldInfo) : Option TypeExpr :=
  (TypeExpr.parse info.field.type).toOption

def classification? (info : FieldInfo) : Option Classification :=
  info.access.classification?

def enum? (info : FieldInfo) : Option String :=
  info.classification?.bind (·.enum?)

def isMulti (info : FieldInfo) : Bool :=
  info.classification?.any (·.isMulti)

def isProxied (info : FieldInfo) : Bool :=
  info.access.isProxied

end FieldInfo

structure EntityFields where
  entity : Entity
  fields : List FieldInfo
deriving DecidableEq, Repr

namespace EntityFields

def name (e : EntityFields) : String :=
  e.entity.name

def field? (e : EntityFields) (name : String) : Option FieldInfo :=
  e.fields.find? (·.name = name)

def relationTargets (e : EntityFields) : List String :=
  e.fields.filterMap fun info => info.classification?.bind (·.target?)

end EntityFields

structure Catalog where
  entities : List EntityFields
deriving DecidableEq, Repr

namespace Catalog

def entity? (c : Catalog) (name : String) : Option EntityFields :=
  c.entities.find? (·.name = name)

def hasEntity (c : Catalog) (name : String) : Bool :=
  (c.entity? name).isSome

def field? (c : Catalog) (entity field : String) : Option FieldInfo :=
  (c.entity? entity).bind (·.field? field)

def relationTargets (c : Catalog) (entity : String) : List String :=
  (c.entity? entity).elim [] (·.relationTargets)

structure Built (α : Type) where
  value : α
  errors : List ClassificationError
  enums : EnumTable

section

variable (schema : Schema) (settings : Settings)

-- Whether a field is left as it is written: the primary key, and the fields that the record store
-- manages, unless they are kept under another key.
def isExempt (f : Field) : Bool :=
  f.name = settings.primaryKey || (f.excluded && !f.isRenamed)

def assign (enums : EnumTable) (entity : String) (f : Field) (c : Classification) :
    Classification × EnumTable :=
  match c, f.enumeration with
  | .enumeration multiplicity _, some spec =>
    let (registration, enums) := enums.register entity f.name spec
    (.enumeration multiplicity registration.name, enums)
  | c, _ => (c, enums)

def buildField (enums : EnumTable) (entity : String) (f : Field) : Built FieldInfo :=
  if isExempt settings f then ⟨⟨entity, f, .direct⟩, [], enums⟩
  else match f.classify schema settings entity with
  | .ok c =>
    let (c, enums) := assign enums entity f c
    ⟨⟨entity, f, .proxied c⟩, [], enums⟩
  | .error error => ⟨⟨entity, f, .unavailable⟩, [error], enums⟩

def buildFields (entity : String) (enums : EnumTable) (seen : List String) :
    List Field → Built (List FieldInfo)
  | [] => ⟨[], [], enums⟩
  | f :: rest =>
    if seen.contains f.name then
      let built := buildFields entity enums seen rest
      { built with errors := .field entity f.name f.span .duplicateField :: built.errors }
    else
      let first := buildField schema settings enums entity f
      let built := buildFields entity first.enums (f.name :: seen) rest
      ⟨first.value :: built.value, first.errors ++ built.errors, built.enums⟩

def buildEntities (enums : EnumTable) (seen : List String) :
    List Entity → Built (List EntityFields)
  | [] => ⟨[], [], enums⟩
  | e :: rest =>
    if seen.contains e.name then
      let built := buildEntities enums seen rest
      { built with errors := .duplicateEntity e.name e.span :: built.errors }
    else
      let first := buildFields schema settings e.name enums [] e.fields
      let built := buildEntities first.enums (e.name :: seen) rest
      ⟨⟨e, first.value⟩ :: built.value, first.errors ++ built.errors, built.enums⟩

-- Builds the catalog of a schema. The names of its entities are reserved before any enumeration is
-- registered.
def build (enums : EnumTable) : Built Catalog :=
  let enums := schema.entities.foldl (·.reserve ·.name) enums
  let built := buildEntities schema settings enums [] schema.entities
  { built with value := ⟨built.value⟩ }

end

end Catalog

end FieldAccess
