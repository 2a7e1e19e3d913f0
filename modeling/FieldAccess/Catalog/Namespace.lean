import FieldAccess.Catalog.Basic
import FieldAccess.Syntax.Decl

namespace FieldAccess

inductive NameOrigin where
  | accessor (field : String)
  | mutator (field : String)
  | userMethod
  | collectionGetter
  | wrapperType
deriving DecidableEq, Repr

def NameOrigin.render : NameOrigin → String
  | accessor field => "accessor of `" ++ field ++ "`"
  | mutator field => "mutator of `" ++ field ++ "`"
  | userMethod => "user method"
  | collectionGetter => "collection-name getter"
  | wrapperType => "wrapper type"

inductive CollisionCause where
  | reserved (origin : NameOrigin)
  | duplicate (first : NameOrigin) (second : NameOrigin)
deriving DecidableEq, Repr

structure NameCollision where
  entity : String
  name : String
  span : Span
  cause : CollisionCause
deriving DecidableEq, Repr

namespace NameCollision

def message (c : NameCollision) : String :=
  match c.cause with
  | .reserved origin =>
    c.entity ++ "." ++ c.name ++ " (" ++ origin.render ++ ") shadows a record store member"
  | .duplicate first second =>
    c.entity ++ "." ++ c.name ++ " is declared by both the " ++ first.render ++ " and the " ++
      second.render

def diagnostic (c : NameCollision) : Diagnostic :=
  ⟨.error, c.span, c.message, some c.name⟩

def listMessage (cs : List NameCollision) : String :=
  "generated names collide: " ++ "; ".intercalate (cs.map message)

end NameCollision

def collectionGetter : String := "CollectionName"

def recordMembers : List String :=
  ["Id", "Collection", "Original", "Fresh", "Clone", "Expand", "SetExpand", "MergeExpand",
   "FieldsData", "CustomData", "WithCustomData", "IgnoreEmailVisibility", "IgnoreUnchangedFields",
   "Get", "GetRaw", "Set", "SetRaw", "SetIfFieldExists", "GetBool", "GetString", "GetInt",
   "GetFloat", "GetDateTime", "GetGeoPoint", "GetStringSlice", "GetUnsavedFiles", "ExpandedOne",
   "ExpandedAll", "FindFileFieldByFile",
   "Load", "Hide", "Unhide", "PublicExport", "MarshalJSON", "UnmarshalJSON", "ReplaceModifiers",
   "Email", "SetEmail", "Verified", "SetVerified", "EmailVisibility", "SetEmailVisibility",
   "ValidatePassword", "SetPassword", "SetRandomPassword", "TokenKey", "SetTokenKey",
   "RefreshTokenKey", "NewStaticAuthToken", "NewAuthToken", "NewVerificationToken",
   "NewPasswordResetToken", "NewEmailChangeToken", "NewFileToken",
   "TableName", "PostScan", "PK", "LastSavedPK", "IsNew", "MarkAsNew", "MarkAsNotNew", "Record",
   "SetProxyRecord", "ProxyRecord"]

def Settings.reserved (s : Settings) : List String :=
  recordMembers ++ s.reservedNames

structure Member where
  name : String
  origin : NameOrigin
  span : Span
deriving DecidableEq, Repr

structure Namespace where
  entity : String
  members : List Member
deriving DecidableEq, Repr

namespace Namespace

def ofField (info : FieldInfo) : List Member :=
  if info.isProxied then
    [⟨info.accessor, .accessor info.name, info.field.span⟩,
     ⟨info.mutator, .mutator info.name, info.field.span⟩]
  else []

-- The members of an entity's wrapper: those of its fields, the collection getter if the collection
-- is known, and the methods that are declared on it.
def ofEntity (e : EntityFields) (methods : List FuncDecl) : Namespace where
  entity := e.name
  members :=
    e.fields.flatMap ofField ++
    (if e.entity.collection.isSome then
      [⟨collectionGetter, .collectionGetter, e.entity.span⟩] else []) ++
    (methods.filter (·.receiverEntity? = some e.name)).map fun f =>
      ⟨f.name, .userMethod, f.span⟩

def memberCollisions (reserved : List String) (entity : String) (seen : List Member) (m : Member) :
    List NameCollision :=
  (if reserved.contains m.name then [⟨entity, m.name, m.span, .reserved m.origin⟩] else []) ++
  match seen.find? (·.name = m.name) with
  | some first => [⟨entity, m.name, m.span, .duplicate first.origin m.origin⟩]
  | none => []

def collisionsFrom (reserved : List String) (entity : String) (seen : List Member) :
    List Member → List NameCollision
  | [] => []
  | m :: rest =>
    memberCollisions reserved entity seen m ++
      collisionsFrom reserved entity (seen ++ [m]) rest

def collisions (reserved : List String) (n : Namespace) : List NameCollision :=
  (if reserved.contains n.entity then
    [⟨n.entity, n.entity, (n.members.head?.map Member.span).getD .nowhere, .reserved .wrapperType⟩]
  else []) ++
  collisionsFrom reserved n.entity [] n.members

def allCollisions (reserved : List String) (ns : List Namespace) : List NameCollision :=
  ns.flatMap (collisions reserved)

def check (reserved : List String) (ns : List Namespace) : Except (List NameCollision) Unit :=
  let found := allCollisions reserved ns
  if found.isEmpty then .ok () else .error found

theorem check_of_eq_nil {reserved : List String} {ns : List Namespace}
    (none : allCollisions reserved ns = []) : check reserved ns = .ok () := by
  simp [check, none]

theorem check_of_ne_nil {reserved : List String} {ns : List Namespace}
    (some : allCollisions reserved ns ≠ []) :
    check reserved ns = .error (allCollisions reserved ns) := by
  simp [check, some]

end Namespace

end FieldAccess
