import FieldAccess.Text.Words

namespace FieldAccess.Naming

def reservedWords : List String :=
  ["break", "case", "chan", "const", "continue", "default", "defer", "else", "fallthrough", "for",
   "func", "go", "goto", "if", "import", "interface", "map", "package", "range", "return", "select",
   "struct", "switch", "type", "var"]

def accessor (field : String) : String :=
  Text.upperCamel field

def mutator (field : String) : String :=
  "Set" ++ accessor field

-- The name of a local variable that holds a value of a field. It keeps an underscore at the end, is
-- never empty and never a reserved word.
def localVariable (field : String) : String :=
  let name := Text.lowerCamel field
  let name := if name.isEmpty then "v" else name
  let name := if field.endsWith "_" && !name.endsWith "_" then name ++ "_" else name
  if reservedWords.contains name then name ++ "_" else name

def candidates (base : String) (count : Nat) : List String :=
  base :: (List.range' 2 count).map (base ++ toString ·)

-- The first of `base`, `base2`, `base3`, … that is not taken. There is always one among the first
-- `taken.length + 1`.
def unique (base : String) (taken : List String) : String :=
  ((candidates base taken.length).find? (!taken.contains ·)).getD base

end FieldAccess.Naming
