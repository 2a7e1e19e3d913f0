import FieldAccess.Generate.Run

namespace FieldAccess

structure Session where
  schema : Schema
  settings : Settings
  classification : Option (Catalog.Built Catalog) := none
  log : DiagnosticLog := {}

namespace Session

def built (s : Session) : Catalog.Built Catalog :=
  s.classification.getD ⟨⟨[]⟩, [], {}⟩

def catalog (s : Session) : Catalog :=
  s.built.value

def enums (s : Session) : EnumTable :=
  s.built.enums

def errors (s : Session) : List ClassificationError :=
  s.built.errors

def classify (s : Session) : Session :=
  { s with classification := some (Catalog.build s.schema s.settings {}) }

def ensureClassified (s : Session) : Session :=
  if s.classification.isSome then s else s.classify

def accessors (s : Session) (entity : String) : List AccessorPair :=
  (s.catalog.entity? entity).elim [] (·.accessors s.settings)

def redirect (s : Session) (methods : MethodTable) (f : FuncDecl) : Except RedirectError FuncDecl :=
  f.redirect s.catalog methods s.settings

def generate (s : Session) (methods : List FuncDecl) : Except GenerateError Generated × Session :=
  let s := s.classify
  let run := Run.ofCatalog s.settings s.built methods
  (run.result, { s with log := s.log.reportAll run.reports })

def clearLog (s : Session) : Session :=
  { s with log := {} }

end Session

end FieldAccess
