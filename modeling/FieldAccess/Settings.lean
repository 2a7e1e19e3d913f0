
namespace FieldAccess

structure Settings where
  getters : List (String × String)
  reservedNames : List String
  primaryKey : String
  strict : Bool
  helperLead : String
  receiver : String
deriving DecidableEq, Repr

namespace Settings

def standard : Settings where
  getters :=
    [("bool", "GetBool"), ("int", "GetInt"), ("float64", "GetFloat"), ("string", "GetString"),
     ("types.DateTime", "GetDateTime"), ("[]string", "GetStringSlice")]
  reservedNames := []
  primaryKey := "Id"
  strict := false
  helperLead := "zz"
  receiver := "p"

def getter? (s : Settings) (type : String) : Option String :=
  s.getters.lookup type

def nameTable (s : Settings) (enum : String) : String :=
  s.helperLead ++ enum ++ "SelectNameMap"

def ordinalTable (s : Settings) (enum : String) : String :=
  s.helperLead ++ enum ++ "SelectIotaMap"

def sliceHelper (s : Settings) (enum : String) : String :=
  s.helperLead ++ enum ++ "SliceOf"

end Settings

end FieldAccess
