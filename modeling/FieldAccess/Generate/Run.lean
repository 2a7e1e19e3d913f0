import FieldAccess.Generate.Accessor
import FieldAccess.Generate.Wrapper
import FieldAccess.Redirect.Method

namespace FieldAccess

inductive GenerateError where
  -- Errors of the classification are given only where they are fatal.
  | failed (classification : List ClassificationError) (redirect : List RedirectError)
  | collisions (all : List NameCollision)
deriving DecidableEq, Repr

def GenerateError.message : GenerateError → String
  | failed classification redirect =>
    "generation failed with " ++ toString classification.length ++
      " classification error(s) and " ++ toString redirect.length ++ " rewrite error(s)"
  | collisions all => NameCollision.listMessage all

structure Generated where
  declarations : List Decl
  enums : List EnumEntry

namespace Generated

def functions (g : Generated) : List FuncDecl :=
  g.declarations.filterMap (·.func?)

def method? (g : Generated) (entity name : String) : Option FuncDecl :=
  g.functions.find? fun f => f.name = name && f.receiverEntity? = some entity

end Generated

-- The enumerations of fields, each at the first field that has it and none that is in `emitted`.
def EnumTable.firstUses (t : EnumTable) (emitted : List String) : List FieldInfo → List EnumEntry
  | [] => []
  | info :: rest =>
    match info.enum?.bind t.get? with
    | some entry =>
      if emitted.contains entry.name then t.firstUses emitted rest
      else entry :: t.firstUses (entry.name :: emitted) rest
    | none => t.firstUses emitted rest

def EntityFields.functions (e : EntityFields) (settings : Settings) (methods : List FuncDecl) :
    List FuncDecl :=
  methods.filter (·.receiverEntity? = some e.name) ++
    (e.entity.collectionGetter? settings).toList ++
    (e.accessors settings).flatMap fun pair => [pair.accessor, pair.mutator]

namespace Catalog

-- The declarations of entities; those of the enumerations in `emitted` stand before.
def declarationsFrom (enums : EnumTable) (settings : Settings) (methods : List FuncDecl)
    (emitted : List String) : List EntityFields → List Decl
  | [] => []
  | e :: rest =>
    let new := enums.firstUses emitted e.fields
    new.flatMap (·.declarations settings) ++
      e.entity.wrapper :: (e.functions settings methods).map .func ++
      declarationsFrom enums settings methods (new.map (·.name) ++ emitted) rest

def declarations (c : Catalog) (enums : EnumTable) (settings : Settings) (methods : List FuncDecl) :
    List Decl :=
  declarationsFrom enums settings methods [] c.entities

def collectionNotes (c : Catalog) : List Diagnostic :=
  (c.entities.filter (·.entity.collection.isNone)).map fun e =>
    ⟨.info, e.entity.span,
      e.name ++ " has no collection name, skipping " ++ collectionGetter ++ "()", none⟩

end Catalog

-- Errors of the classification count as warnings unless they are fatal.
def ClassificationError.report (e : ClassificationError) (strict : Bool) : Diagnostic :=
  if strict then e.diagnostic else { e.diagnostic with level := .warning }

def partitionResults {ε α : Type} : List (Except ε α) → List ε × List α
  | [] => ([], [])
  | .error e :: rest => let (errors, values) := partitionResults rest; (e :: errors, values)
  | .ok a :: rest => let (errors, values) := partitionResults rest; (errors, a :: values)

structure Run where
  result : Except GenerateError Generated
  reports : List Diagnostic

namespace Run

def ofCatalog (settings : Settings) (built : Catalog.Built Catalog) (methods : List FuncDecl) :
    Run :=
  let catalog := built.value
  let (errors, redirected) :=
    partitionResults (methods.map (·.redirect catalog ⟨methods⟩ settings))
  let found := built.errors.map (·.report settings.strict) ++ errors.map (·.diagnostic)
  let fatal := if settings.strict then built.errors else []
  if !errors.isEmpty || !fatal.isEmpty then ⟨.error (.failed fatal errors), found⟩
  else match Namespace.check settings.reserved
      (catalog.entities.map (Namespace.ofEntity · methods)) with
  | .error collisions =>
    ⟨.error (.collisions collisions), found ++ collisions.map (·.diagnostic)⟩
  | .ok () =>
    ⟨.ok ⟨catalog.declarations built.enums settings redirected, built.enums.entries⟩,
      found ++ catalog.collectionNotes⟩

def ofSchema (schema : Schema) (settings : Settings) (methods : List FuncDecl) : Run :=
  ofCatalog settings (Catalog.build schema settings {}) methods

end Run

end FieldAccess
