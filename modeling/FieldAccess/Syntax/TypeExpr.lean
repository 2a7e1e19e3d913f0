import FieldAccess.Text.Alphabet

namespace FieldAccess

inductive TypeExpr where
  | named (name : String)
  | pointer (inner : TypeExpr)
  | slice (element : TypeExpr)
  | map (key value : TypeExpr)
  | approx (inner : TypeExpr)
deriving DecidableEq, Repr, Inhabited

namespace TypeExpr

def int : TypeExpr := named "int"
def float64 : TypeExpr := named "float64"
def string : TypeExpr := named "string"
def bool : TypeExpr := named "bool"
def any : TypeExpr := named "any"

def integerNames : List String :=
  ["int", "int8", "int16", "int32", "int64", "uint", "uint8", "uint16", "uint32", "uint64",
   "uintptr", "byte", "rune"]

def floatNames : List String :=
  ["float32", "float64"]

def nilableNames : List String :=
  ["any", "error"]

def render : TypeExpr → String
  | named name => name
  | pointer inner => "*" ++ inner.render
  | slice element => "[]" ++ element.render
  | map key value => "map[" ++ key.render ++ "]" ++ value.render
  | approx inner => "~" ++ inner.render

-- The entity a value of this type refers to: `E` and `*E` both name `E`.
def namedTarget? : TypeExpr → Option String
  | named name => some name
  | pointer (named name) => some name
  | _ => none

def element? : TypeExpr → Option TypeExpr
  | slice element => some element
  | map _ value => some value
  | _ => none

def isSlice : TypeExpr → Bool
  | slice _ => true
  | _ => false

def isInteger : TypeExpr → Bool
  | named name => integerNames.contains name
  | _ => false

def isFloat : TypeExpr → Bool
  | named name => floatNames.contains name
  | _ => false

-- Named types that are not predeclared. A constant of any basic kind may have one of these, since
-- its underlying type is not known.
def isUserNamed : TypeExpr → Bool
  | named name =>
    !(integerNames.contains name || floatNames.contains name || nilableNames.contains name ||
      name = "string" || name = "bool")
  | _ => false

def isNilable : TypeExpr → Bool
  | pointer _ | slice _ | map _ _ => true
  | named name => nilableNames.contains name
  | approx _ => false

inductive Fault where
  | noName
  | malformedName
  | leadingDigit
  | openMapKey
  | trailing
deriving DecidableEq, Repr

def Fault.message : Fault → String
  | noName => "expected a type name"
  | malformedName => "malformed qualified type name"
  | leadingDigit => "type names cannot start with a digit"
  | openMapKey => "expected `]` after map key type"
  | trailing => "unexpected trailing input"

def isNameChar (c : Char) : Bool :=
  Text.isAlphanumeric c || c = '_' || c = '.'

def hasStrayPoint : List Char → Bool
  | [] => false
  | '.' :: _ => true
  | c :: rest => go c rest
where
  go (before : Char) : List Char → Bool
    | [] => before = '.'
    | c :: rest => (before = '.' && c = '.') || go c rest

def checkName (name : List Char) : Except Fault TypeExpr :=
  if name.isEmpty then throw .noName
  else if hasStrayPoint name then throw .malformedName
  else if name.head?.any Char.isDigit then throw .leadingDigit
  else pure (named (String.ofList name))

theorem checkName_nil : checkName [] = .error .noName := rfl

structure Front (text : List Char) where
  type : TypeExpr
  rest : List Char
  shorter : rest.length < text.length

namespace Front

def map {text : List Char} (f : TypeExpr → TypeExpr) (t : Front text) : Front text :=
  ⟨f t.type, t.rest, t.shorter⟩

def below {text rest : List Char} (t : Front rest) (h : rest.length < text.length) : Front text :=
  ⟨t.type, t.rest, Nat.lt_trans t.shorter h⟩

end Front

theorem length_lt_of_dropWhile {p : Char → Bool} {text rest : List Char} {c : Char}
    (h : text.dropWhile p = c :: rest) : rest.length < text.length := by
  have := (List.dropWhile_suffix p (l := text)).length_le
  rw [h, List.length_cons] at this
  omega

def front (text : List Char) : Except Fault (Front text) :=
  match h : text.dropWhile Text.isBlank with
  | '*' :: rest => do
    have lt := length_lt_of_dropWhile h
    let inner ← front rest
    return (inner.map pointer).below lt
  | '~' :: rest => do
    have lt := length_lt_of_dropWhile h
    let inner ← front rest
    return (inner.map approx).below lt
  | '[' :: ']' :: rest => do
    have lt := Nat.lt_of_succ_lt (length_lt_of_dropWhile h)
    let element ← front rest
    return (element.map slice).below lt
  | 'm' :: 'a' :: 'p' :: '[' :: rest => do
    have lt := Nat.lt_of_succ_lt (Nat.lt_of_succ_lt (Nat.lt_of_succ_lt (length_lt_of_dropWhile h)))
    let ⟨key, afterKey, lt₁⟩ ← front rest
    match h : afterKey.dropWhile Text.isBlank with
    | ']' :: rest =>
      have lt₂ := length_lt_of_dropWhile h
      let value ← front rest
      return value.map (map key) |>.below lt₂ |>.below lt₁ |>.below lt
    | _ => throw .openMapKey
  | [] => throw .noName
  | c :: rest => do
    let type ← checkName ((c :: rest).takeWhile isNameChar)
    return ⟨type, rest.dropWhile isNameChar,
      Nat.lt_of_le_of_lt (List.dropWhile_suffix isNameChar).length_le (length_lt_of_dropWhile h)⟩
termination_by text.length

def parse (text : String) : Except Fault TypeExpr := do
  let ⟨type, rest, _⟩ ← front text.toList
  if rest.all Text.isBlank then pure type else throw .trailing

end TypeExpr

structure TypeError where
  text : String
  fault : TypeExpr.Fault
deriving DecidableEq, Repr

def TypeError.message (e : TypeError) : String :=
  "invalid type expression `" ++ e.text ++ "`: " ++ e.fault.message

end FieldAccess
