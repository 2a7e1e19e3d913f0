import FieldAccess.Catalog.Namespace
import FieldAccess.Generate.Code

namespace FieldAccess

open Code

def wrappedRecord : TypeExpr :=
  .named "core.BaseRecordProxy"

namespace Entity

def wrapper (e : Entity) : Decl :=
  .struct e.name [⟨none, wrappedRecord⟩]

def collectionGetter? (e : Entity) (settings : Settings) : Option FuncDecl :=
  e.collection.map fun collection =>
    function e.span (some ⟨settings.receiver, .pointer (.named e.name)⟩) collectionGetter []
      [.string] [answer e.span (text e.span collection)]

end Entity

namespace EnumEntry

def options (e : EnumEntry) : List (String × String) :=
  e.labels.zip e.constNames

def sliceHelper (e : EnumEntry) (settings : Settings) : FuncDecl :=
  let here : Span := .nowhere
  let type : TypeExpr := .slice (.named e.name)
  let converted := ident here "converted"
  { function here none (settings.sliceHelper e.name) [⟨"values", .slice (.named "T")⟩] [type]
      [define here ["converted"]
         (make here type [number here 0, apply here "len" [ident here "values"]]),
       each here "_" (some "v") (ident here "values")
         [assign here converted
           (apply here "append" [converted, apply here e.name [ident here "v"]])],
       answer here converted] with
    typeParams := [⟨"T", .approx .int⟩] }

def declarations (e : EnumEntry) (settings : Settings) : List Decl :=
  let here : Span := .nowhere
  [.defined e.name .int,
   .consts e.name e.constNames,
   .var (settings.nameTable e.name)
     (table here (.map .string (.named e.name))
       (e.options.map fun (label, const) => (text here label, ident here const))),
   .var (settings.ordinalTable e.name)
     (table here (.map (.named e.name) .string)
       (e.options.map fun (label, const) => (ident here const, text here label))),
   .func (e.sliceHelper settings)]

end EnumEntry

end FieldAccess
