import FieldAccess.Syntax.Decl

namespace FieldAccess

structure MethodTable where
  methods : List FuncDecl

namespace MethodTable

-- The method of an entity that was declared last under a name.
def get? (t : MethodTable) (entity name : String) : Option FuncDecl :=
  t.methods.reverse.find? fun f => f.receiverEntity? = some entity && f.name = name

def resultType? (t : MethodTable) (entity name : String) : Option TypeExpr :=
  match (t.get? entity name).map (·.results) with
  | some [result] => some result
  | _ => none

end MethodTable

end FieldAccess
