import FieldAccess.Diagnostic
import FieldAccess.Schema.Basic
import FieldAccess.Settings
import FieldAccess.Syntax.TypeExpr

namespace FieldAccess

inductive Multiplicity where
  | single
  | multi
deriving DecidableEq, Repr

def Multiplicity.render : Multiplicity → String
  | single => "Single"
  | multi => "Multi"

inductive Classification where
  | primitive (representation : String) (getter : String)
  | relation (multiplicity : Multiplicity) (target : String)
  | enumeration (multiplicity : Multiplicity) (enum : String)
deriving DecidableEq, Repr

namespace Classification

def multiplicity : Classification → Multiplicity
  | primitive _ _ => .single
  | relation m _ | enumeration m _ => m

def isMulti (c : Classification) : Bool :=
  c.multiplicity = .multi

def enum? : Classification → Option String
  | enumeration _ enum => some enum
  | _ => none

def target? : Classification → Option String
  | relation _ target => some target
  | _ => none

def render : Classification → String
  | primitive representation _ => "primitive " ++ representation
  | relation m target => m.render ++ " relation to " ++ target
  | enumeration m enum => m.render ++ " enumeration " ++ enum

end Classification

inductive FieldFault where
  | unresolvedRelation (target : String)
  | enumRepresentation (enum : String) (found : String)
  | malformedType (error : TypeError)
  | constCount (enum : String) (labels : Nat) (consts : Nat)
  | noGetter (type : String)
  | duplicateField
  | emptyEnumeration (enum : String)
  | duplicateLabel (enum : String) (label : String)
deriving DecidableEq, Repr

def FieldFault.message : FieldFault → String
  | unresolvedRelation target =>
    "relation target `" ++ target ++ "` is not an entity of the schema"
  | enumRepresentation enum found =>
    "enumeration `" ++ enum ++ "` needs an `int` or `[]int` representation, found `" ++ found ++ "`"
  | malformedType error => error.message
  | constCount enum labels consts =>
    "enumeration `" ++ enum ++ "` has " ++ toString labels ++ " options but " ++ toString consts ++
      " constant names"
  | noGetter type => "the record store has no getter for `" ++ type ++ "`"
  | duplicateField => "field is declared more than once"
  | emptyEnumeration enum => "enumeration `" ++ enum ++ "` declares no options"
  | duplicateLabel enum label =>
    "enumeration `" ++ enum ++ "` declares option `" ++ label ++ "` twice"

inductive ClassificationError where
  | duplicateEntity (name : String) (span : Span)
  | field (entity : String) (name : String) (span : Span) (fault : FieldFault)
deriving DecidableEq, Repr

namespace ClassificationError

def span : ClassificationError → Span
  | duplicateEntity _ span | field _ _ span _ => span

def context : ClassificationError → String
  | duplicateEntity name _ => name
  | field entity name _ _ => entity ++ "." ++ name

def message : ClassificationError → String
  | duplicateEntity name _ => "entity `" ++ name ++ "` is declared more than once"
  | field entity name _ fault => entity ++ "." ++ name ++ ": " ++ fault.message

def diagnostic (e : ClassificationError) : Diagnostic :=
  ⟨.error, e.span, e.message, some e.context⟩

end ClassificationError

def firstRepeated? : List String → Option String :=
  go []
where
  go (seen : List String) : List String → Option String
    | [] => none
    | x :: rest => if seen.contains x then some x else go (x :: seen) rest

namespace Field

-- Named types that no entity can be meant by.
def builtinTypes : List String :=
  ["bool", "string", "int", "int8", "int16", "int32", "int64", "uint", "uint8", "uint16", "uint32",
   "uint64", "uintptr", "byte", "rune", "float32", "float64", "complex64", "complex128", "any",
   "error"]

def enumMultiplicity? : TypeExpr → Option Multiplicity
  | .named "int" => some .single
  | .slice (.named "int") => some .multi
  | _ => none

def relation? : TypeExpr → Option (Multiplicity × String)
  | .named name | .pointer (.named name) => some (.single, name)
  | .slice (.named name) | .slice (.pointer (.named name)) => some (.multi, name)
  | _ => none

def classifyEnum (type : TypeExpr) (spec : EnumSpec) : Except FieldFault Classification :=
  match enumMultiplicity? type with
  | none => throw (.enumRepresentation spec.typeName type.render)
  | some multiplicity =>
    if spec.labels.isEmpty then throw (.emptyEnumeration spec.typeName)
    else match firstRepeated? spec.labels with
    | some label => throw (.duplicateLabel spec.typeName label)
    | none =>
      match spec.constNames with
      | some names =>
        if names.length = spec.labels.length then pure (.enumeration multiplicity spec.typeName)
        else throw (.constCount spec.typeName spec.labels.length names.length)
      | none => pure (.enumeration multiplicity spec.typeName)

def classifyPlain (schema : Schema) (settings : Settings) (type : TypeExpr) :
    Except FieldFault Classification :=
  match settings.getter? type.render with
  | some getter => pure (.primitive type.render getter)
  | none =>
    match relation? type with
    | none => throw (.noGetter type.render)
    | some (multiplicity, target) =>
      if schema.hasEntity target then pure (.relation multiplicity target)
      else if builtinTypes.contains target || target.toList.contains '.' then
        throw (.noGetter type.render)
      else throw (.unresolvedRelation target)

def classifyFault (schema : Schema) (settings : Settings) (f : Field) :
    Except FieldFault Classification :=
  match TypeExpr.parse f.type with
  | .error fault => throw (.malformedType ⟨f.type, fault⟩)
  | .ok type =>
    match f.enumeration with
    | some spec => classifyEnum type spec
    | none => classifyPlain schema settings type

-- Classifies a field of an entity. An enumeration goes by the name that the field requests.
def classify (schema : Schema) (settings : Settings) (entity : String) (f : Field) :
    Except ClassificationError Classification :=
  match f.classifyFault schema settings with
  | .ok c => .ok c
  | .error fault => .error (.field entity f.name f.span fault)

end Field

end FieldAccess
