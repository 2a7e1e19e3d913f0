import FieldAccess.Catalog.Basic
import FieldAccess.Generate.Code

namespace FieldAccess

structure AccessorPair where
  accessor : FuncDecl
  mutator : FuncDecl

structure AccessorSite where
  info : FieldInfo
  settings : Settings

namespace AccessorSite

open Code

-- Variables of accessors and mutators. No parameter has one of these names.
def localNames : List String :=
  ["proxy", "rel", "rels", "proxies", "i", "records", "ids", "r", "e", "option", "options", "ok",
   "is", "o", "label", "labels", "core"]

section

variable (s : AccessorSite)

def span : Span :=
  s.info.field.span

def param : String :=
  Naming.unique (Naming.localVariable s.info.name) (s.settings.receiver :: localNames)

def receiver : Expr :=
  ident s.span s.settings.receiver

def key : Expr :=
  text s.span s.info.key

def value : Expr :=
  ident s.span s.param

def receiverParam : Param :=
  ⟨s.settings.receiver, .pointer (.named s.info.entity)⟩

def accessorOf (result : TypeExpr) (body : List Stmt) : FuncDecl :=
  function s.span (some s.receiverParam) s.info.accessor [] [result] body

def mutatorOf (type : TypeExpr) (body : List Stmt) : FuncDecl :=
  function s.span (some s.receiverParam) s.info.mutator [⟨s.param, type⟩] [] body

def keyed (method : String) (args : List Expr) : Expr :=
  Code.method s.span s.receiver method (s.key :: args)

def store (value : Expr) : Stmt :=
  .expr (method s.span (member s.span s.receiver "Record") "Set" [s.key, value])

def storeExpansion (records : Expr) : List Stmt :=
  [define s.span ["e"] (method s.span s.receiver "Expand" []),
   assign s.span (item s.span (ident s.span "e") s.key) records,
   .expr (method s.span s.receiver "SetExpand" [ident s.span "e"])]

def lookUp (result table : String) (key : Expr) : List Stmt :=
  [define s.span [result, "ok"] (item s.span (ident s.span table) key),
   branch s.span none (.unary s.span .not (ident s.span "ok"))
     [.expr (apply s.span "panic" [text s.span "Unknown select value"])]]

def extend (list element : String) : Stmt :=
  assign s.span (ident s.span list)
    (apply s.span "append" [ident s.span list, ident s.span element])

def length (list : Expr) : Expr :=
  apply s.span "len" [list]

def primitive (getter : String) (type : TypeExpr) : AccessorPair where
  accessor := s.accessorOf type [answer s.span (s.keyed getter [])]
  mutator := s.mutatorOf type [.expr (s.keyed "Set" [s.value])]

def singleRelation (target : String) : AccessorPair where
  accessor :=
    s.accessorOf (.pointer (.named target))
      [.var s.span ["proxy"] (some (.pointer (.named target))) [],
       branch s.span (some (define s.span ["rel"] (s.keyed "ExpandedOne" [])))
         (.binary s.span .ne (ident s.span "rel") (nil s.span))
         [assign s.span (ident s.span "proxy") (fresh s.span (.named target)),
          assign s.span (member s.span (ident s.span "proxy") "Record") (ident s.span "rel")],
       answer s.span (ident s.span "proxy")]
  mutator :=
    s.mutatorOf (.pointer (.named target)) <|
      s.store (member s.span s.value "Id") :: s.storeExpansion (member s.span s.value "Record")

def multiRelation (target : String) : AccessorPair where
  accessor :=
    let type : TypeExpr := .slice (.pointer (.named target))
    let element := item s.span (ident s.span "proxies") (ident s.span "i")
    s.accessorOf type
      [define s.span ["rels"] (s.keyed "ExpandedAll" []),
       define s.span ["proxies"] (make s.span type [s.length (ident s.span "rels")]),
       each s.span "i" none (ident s.span "rels")
         [assign s.span element (fresh s.span (.named target)),
          assign s.span (member s.span element "Record")
            (item s.span (ident s.span "rels") (ident s.span "i"))],
       answer s.span (ident s.span "proxies")]
  mutator :=
    s.mutatorOf (.slice (.pointer (.named target))) <|
      [define s.span ["records"]
         (make s.span (.slice (.pointer (.named "core.Record"))) [s.length s.value]),
       define s.span ["ids"] (make s.span (.slice .string) [s.length s.value]),
       each s.span "i" (some "r") s.value
         [assign s.span (item s.span (ident s.span "records") (ident s.span "i"))
            (member s.span (ident s.span "r") "Record"),
          assign s.span (item s.span (ident s.span "ids") (ident s.span "i"))
            (member s.span (ident s.span "r") "Id")],
       s.store (ident s.span "ids")] ++
      s.storeExpansion (ident s.span "records")

def singleEnum (enum : String) : AccessorPair where
  accessor :=
    s.accessorOf (.named enum) <|
      define s.span ["option"] (s.keyed "GetString" []) ::
      s.lookUp "i" (s.settings.nameTable enum) (ident s.span "option") ++
      [answer s.span (ident s.span "i")]
  mutator :=
    s.mutatorOf (.named enum) <|
      s.lookUp "label" (s.settings.ordinalTable enum) s.value ++
      [.expr (s.keyed "Set" [ident s.span "label"])]

def multiEnum (enum : String) : AccessorPair where
  accessor :=
    let type : TypeExpr := .slice (.named enum)
    s.accessorOf type
      [define s.span ["options"] (s.keyed "GetStringSlice" []),
       define s.span ["is"]
         (make s.span type [number s.span 0, s.length (ident s.span "options")]),
       each s.span "_" (some "o") (ident s.span "options") <|
         s.lookUp "i" (s.settings.nameTable enum) (ident s.span "o") ++ [s.extend "is" "i"],
       answer s.span (ident s.span "is")]
  mutator :=
    s.mutatorOf (.slice (.named enum))
      [define s.span ["labels"] (make s.span (.slice .string) [number s.span 0, s.length s.value]),
       each s.span "_" (some "i") s.value <|
         s.lookUp "label" (s.settings.ordinalTable enum) (ident s.span "i") ++
           [s.extend "labels" "label"],
       .expr (s.keyed "Set" [ident s.span "labels"])]

end

end AccessorSite

-- The record keeps primitive values as they are, enumeration values as their labels, and relations
-- twice: the ids of the related records among its data, and the records themselves in its
-- expansion.
def FieldInfo.accessors? (info : FieldInfo) (settings : Settings) : Option AccessorPair :=
  let s : AccessorSite := ⟨info, settings⟩
  info.classification?.bind fun
    | .primitive _ getter => info.declaredType?.map (s.primitive getter)
    | .relation .single target => s.singleRelation target
    | .relation .multi target => s.multiRelation target
    | .enumeration .single enum => s.singleEnum enum
    | .enumeration .multi enum => s.multiEnum enum

def EntityFields.accessors (e : EntityFields) (settings : Settings) : List AccessorPair :=
  e.fields.filterMap (·.accessors? settings)

end FieldAccess
