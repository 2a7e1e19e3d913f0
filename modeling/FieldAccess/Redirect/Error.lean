import FieldAccess.Diagnostic
import FieldAccess.Syntax.Decl
import FieldAccess.Syntax.StaticType

namespace FieldAccess

inductive RelocationFault where
  | elseIf
  -- A `continue` would skip what follows the loop's body.
  | continued
deriving DecidableEq, Repr

def RelocationFault.message : RelocationFault → String
  | elseIf =>
    "field writes cannot be moved out of the branch they initialize in an else-if initializer"
  | continued => "the loop body continues past the relocated post statement"

inductive RedirectFault where
  | relocation (cause : RelocationFault)
  | typeMismatch (entity : String) (field : String) (expected : TypeExpr) (found : StaticType)
  | missingAccessor (entity : String) (field : String)
  -- The receiver is no entity; without a receiver there is no type.
  | unknownReceiver (type : Option TypeExpr)
deriving DecidableEq, Repr

structure RedirectError where
  method : String
  span : Span
  fault : RedirectFault
deriving DecidableEq, Repr

namespace RedirectError

def message (e : RedirectError) : String :=
  e.method ++ ": " ++
    match e.fault with
    | .relocation cause =>
      "cannot relocate field write at " ++ e.span.render ++ ": " ++ cause.message
    | .typeMismatch entity field expected found =>
      "cannot assign " ++ found.render ++ " to " ++ entity ++ "." ++ field ++ " of type " ++
        expected.render ++ " at " ++ e.span.render
    | .missingAccessor entity field =>
      entity ++ "." ++ field ++ " has no generated accessor (used at " ++ e.span.render ++ ")"
    | .unknownReceiver type =>
      "receiver type `" ++ type.elim "" (·.render) ++ "` is not an entity of the schema"

def diagnostic (e : RedirectError) : Diagnostic :=
  ⟨.error, e.span, e.message, some e.method⟩

end RedirectError

end FieldAccess
