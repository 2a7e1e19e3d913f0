import FieldAccess.Naming
import FieldAccess.Syntax.Names

namespace FieldAccess

structure Temporaries where
  taken : List String
deriving DecidableEq, Repr

namespace Temporaries

def predeclared : List String :=
  ["append", "cap", "len", "make", "new", "panic", "nil", "true", "false", "iota", "bool",
   "string", "int", "int64", "float64", "byte", "rune", "any", "error"]

def ofMethod (f : FuncDecl) : Temporaries :=
  ⟨predeclared ++ f.names⟩

def fresh (hint : String) : StateM Temporaries String :=
  modifyGet fun temps =>
    let name := Naming.unique (Naming.localVariable hint) temps.taken
    (name, ⟨name :: temps.taken⟩)

end Temporaries

end FieldAccess
