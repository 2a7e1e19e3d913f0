import FieldAccess.Syntax.Decl
import FieldAccess.Syntax.StaticType

namespace FieldAccess

class TypeOracle (σ : Type) where
  typeOf? : σ → Expr → Option StaticType
  isField : σ → TypeExpr → String → Bool
  declare : σ → Stmt → σ

namespace TypeOracle

def declareHeader {σ : Type} [TypeOracle σ] (o : σ) (header : Option Stmt) : σ :=
  header.elim o (declare o)

end TypeOracle

end FieldAccess
