import FieldAccess.Catalog.Basic
import FieldAccess.Typing.MethodTable
import FieldAccess.Typing.Oracle

namespace FieldAccess

-- A variable of unknown type hides an outer one of its name all the same.
structure LocalBinding where
  name : String
  type : Option TypeExpr
deriving DecidableEq, Repr

structure TypeContext where
  catalog : Catalog
  methods : MethodTable
  -- The innermost binding of a name stands first.
  bindings : List LocalBinding

namespace TypeContext

def conversionNames : List String :=
  ["bool", "string", "int", "int8", "int16", "int32", "int64", "uint", "uint8", "uint16", "uint32",
   "uint64", "byte", "rune", "float32", "float64"]

def lookup? (c : TypeContext) (name : String) : Option TypeExpr :=
  (c.bindings.find? (·.name = name)).bind (·.type)

-- The blank name binds nothing.
def bind (c : TypeContext) (b : LocalBinding) : TypeContext :=
  if b.name = "_" then c else { c with bindings := b :: c.bindings }

def bindAll (c : TypeContext) (bs : List LocalBinding) : TypeContext :=
  bs.foldl bind c

def entityOf? (c : TypeContext) (type : StaticType) : Option String :=
  (type.known?.bind (·.namedTarget?)).filter c.catalog.hasEntity

def literalType : Literal → StaticType
  | .int _ => .untypedInt
  | .float _ => .untypedFloat
  | .string _ => .untypedString
  | .bool _ => .untypedBool
  | .nil => .untypedNil

def elementType? : TypeExpr → Option TypeExpr
  | .slice element => some element
  | .map _ value => some value
  | .named "string" => some (.named "byte")
  | _ => none

def combinedKind (left right : StaticType) : StaticType :=
  if left = .untypedFloat || right = .untypedFloat then .untypedFloat
  else if left = .untypedString || right = .untypedString then .untypedString
  else left

def binaryType? (op : BinaryOp) (left right : Option StaticType) : Option StaticType :=
  let known := (left.filter (!·.isUntyped)).or (right.filter (!·.isUntyped))
  if op.isComparison then some .untypedBool
  else if op.isLogical then some (if known.isSome then .known .bool else .untypedBool)
  else if op.isShift then left
  else known.or (left.bind fun left => right.map (combinedKind left))

def unaryType? (op : UnaryOp) (operand : Option StaticType) : Option StaticType :=
  match op with
  | .addressOf => (operand.bind (·.known?)).map (.known ∘ .pointer)
  | .deref =>
    match operand.bind (·.known?) with
    | some (.pointer inner) => some (.known inner)
    | _ => none
  | .not => some (if operand.any (!·.isUntyped) then .known .bool else .untypedBool)
  | .negate | .plus | .complement => operand

-- The result of a method of an entity: of a declared one, or else of the accessor of a field.
def memberResult? (c : TypeContext) (entity member : String) : Option TypeExpr :=
  (c.methods.resultType? entity member).or <|
    ((c.catalog.entity? entity).bind (·.fields.find? (·.accessor = member))).bind (·.declaredType?)

-- The result of a call of a function that is named alone: a predeclared one or a conversion.
-- `first` is the type of the first argument.
def functionResult? (name : String) (args : List Expr) (first : Option StaticType) :
    Option StaticType :=
  if name = "len" || name = "cap" then some (.known .int)
  else if name = "append" then first
  else if name = "make" || name = "new" then
    match args with
    | .typeOperand _ type :: _ => some (.known type)
    | _ => none
  else if conversionNames.contains name then some (.known (.named name))
  else none

mutual

def typeOf? (c : TypeContext) : Expr → Option StaticType
  | .ident _ name => (c.lookup? name).map .known
  | .literal _ value => some (literalType value)
  | .select _ base member => do
    let entity ← c.entityOf? (← c.typeOf? base)
    (← c.catalog.field? entity member).declaredType?.map .known
  | .call _ (.select _ base member) _ _ => do
    (c.memberResult? (← c.entityOf? (← c.typeOf? base)) member).map .known
  | .call _ (.ident _ name) _ args => functionResult? name args (c.firstType? args)
  | .call _ (.paren _ (.typeOperand _ type)) _ _ => some (.known type)
  | .call _ _ _ _ => none
  | .index _ base _ => do (elementType? (← (← c.typeOf? base).known?)).map .known
  | .binary _ op left right => binaryType? op (c.typeOf? left) (c.typeOf? right)
  | .unary _ op operand => unaryType? op (c.typeOf? operand)
  | .paren _ inner => c.typeOf? inner
  | .composite _ type _ => some (.known type)
  | .typeOperand _ _ => none

def firstType? (c : TypeContext) : List Expr → Option StaticType
  | [] => none
  | e :: _ => c.typeOf? e

end

def variableType? (c : TypeContext) (value : Expr) : Option TypeExpr :=
  (c.typeOf? value).bind (·.default?)

def rangeTypes? (c : TypeContext) (iterable : Expr) : Option TypeExpr × Option TypeExpr :=
  match (c.typeOf? iterable).bind (·.known?) with
  | some (.slice element) => (some .int, some element)
  | some (.map key value) => (some key, some value)
  | some (.named "string") => (some .int, some (.named "rune"))
  | some type => (if type.isInteger then some type else none, none)
  | none => (none, none)

def calledMethod? (c : TypeContext) : Expr → Option FuncDecl
  | .select _ base member => do
    c.methods.get? (← c.entityOf? (← c.typeOf? base)) member
  | _ => none

def definedTypes (c : TypeContext) (count : Nat) (values : List Expr) : List (Option TypeExpr) :=
  if values.length = count then values.map c.variableType?
  else
    let unknown := List.replicate count none
    match values with
    | [value@(.index _ _ _)] => if count = 2 then [c.variableType? value, some .bool] else unknown
    | [.call _ callee _ _] =>
      match c.calledMethod? callee with
      | some f => if f.results.length = count then f.results.map some else unknown
      | none => unknown
    | _ => unknown

-- The bindings of a `var` statement. Each variable is visible in the values after its own.
def varBindings (c : TypeContext) (type : Option TypeExpr) :
    List String → List Expr → List LocalBinding
  | [], _ => []
  | name :: names, values =>
    let b : LocalBinding := ⟨name, type.or (values.head?.bind c.variableType?)⟩
    b :: varBindings (c.bind b) type names values.tail

def targetBindings (targets : List Expr) (types : List (Option TypeExpr)) : List LocalBinding :=
  (targets.zip types).filterMap fun (target, type) => target.ident?.map (⟨·, type⟩)

def bindingsOf (c : TypeContext) : Stmt → List LocalBinding
  | .var _ names type values => c.varBindings type names values
  | .assign _ targets .define values =>
    targetBindings targets (c.definedTypes targets.length values)
  | .range _ key value true iterable _ =>
    let types := c.rangeTypes? iterable
    targetBindings key.toList [types.1] ++ targetBindings value.toList [types.2]
  | _ => []

def declare (c : TypeContext) (s : Stmt) : TypeContext :=
  c.bindAll (c.bindingsOf s)

instance : TypeOracle TypeContext where
  typeOf? := typeOf?
  isField c base member :=
    base.namedTarget?.any fun entity => (c.catalog.field? entity member).isSome
  declare := declare

def boundTypes (bs : List LocalBinding) : List TypeExpr :=
  (bs.filter (·.name ≠ "_")).filterMap (·.type)

def headerTypes (c : TypeContext) (header : Option Stmt) : List TypeExpr :=
  boundTypes (header.elim [] c.bindingsOf)

mutual

def typesIn (c : TypeContext) : Stmt → List TypeExpr
  | .block body => c.typesInBlock body
  | .ifElse _ init _ body orElse =>
    let inner := TypeOracle.declareHeader c init
    c.headerTypes init ++ inner.typesInBlock body ++ inner.typesInBranch orElse
  | .forLoop _ init _ _ body =>
    c.headerTypes init ++ (TypeOracle.declareHeader c init).typesInBlock body
  | .range span key value define iterable body =>
    let bs := c.bindingsOf (.range span key value define iterable body)
    boundTypes bs ++ (c.bindAll bs).typesInBlock body
  | .switch _ init _ cases =>
    c.headerTypes init ++ (TypeOracle.declareHeader c init).typesInCases cases
  | s => boundTypes (c.bindingsOf s)

def typesInBranch (c : TypeContext) : Option Stmt → List TypeExpr
  | none => []
  | some s => c.typesIn s

def typesInBlock (c : TypeContext) : Block → List TypeExpr
  | .mk _ statements => c.typesInList statements

def typesInCases (c : TypeContext) : List Case → List TypeExpr
  | [] => []
  | .mk _ _ body :: rest => c.typesInList body ++ c.typesInCases rest

-- The variables of a loop over elements end with the loop.
def typesInList (c : TypeContext) : List Stmt → List TypeExpr
  | [] => []
  | s :: rest => c.typesIn s ++ (if s.isRange then c else c.declare s).typesInList rest

end

def parameterBindings (f : FuncDecl) : List LocalBinding :=
  (f.receiver.toList ++ f.params).map fun p => ⟨p.name, some p.type⟩

def ofMethod (catalog : Catalog) (methods : MethodTable) (f : FuncDecl) : TypeContext :=
  bindAll ⟨catalog, methods, []⟩ (parameterBindings f)

def typesInMethod (catalog : Catalog) (methods : MethodTable) (f : FuncDecl) : List TypeExpr :=
  boundTypes (parameterBindings f) ++ (ofMethod catalog methods f).typesInBlock f.body

end TypeContext

end FieldAccess
