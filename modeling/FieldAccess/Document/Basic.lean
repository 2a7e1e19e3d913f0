import FieldAccess.Decimal.Reader

namespace FieldAccess

inductive ScalarKind where
  | absent
  | bool
  | integer
  | other
deriving DecidableEq

inductive Document where
  | null
  | bool (value : Bool)
  | integer (value : Int)
  | decimal (value : Float)
  | str (value : String)
  -- An unquoted scalar is kept as text, since what it stands for depends on what is wanted.
  | bare (value : String)
  | tagged (unquoted : Bool) (kind : ScalarKind) (value : String)
  | list (items : List Document)
  | series (items : List Document)
  | table (entries : List (String × Document))
  -- A value that is well formed but stands for nothing: a text with half of a surrogate pair
  -- alone, a number that no double holds, or a table one of whose keys is no text.
  | unreadable

instance : Inhabited Document := ⟨.null⟩

namespace Document

def text? : Document → Option String
  | str value | bare value | tagged _ _ value => some value
  | _ => none

-- What a scalar of a kind is read from. An unquoted one may be of any kind, a block of lines is of
-- the kind of its tag.
def written? (kind : ScalarKind) : Document → Option String
  | bare value => some value
  | tagged unquoted given value => if unquoted || given = kind then some value else none
  | _ => none

def bareBool? (value : String) : Option Bool :=
  if ["true", "True", "TRUE"].contains value then some true
  else if ["false", "False", "FALSE"].contains value then some false
  else none

def bool? : Document → Option Bool
  | bool value => some value
  | d => (d.written? .bool).bind bareBool?

def digit? (base : Nat) (c : Char) : Option Nat :=
  let value :=
    if c.isDigit then c.toNat - '0'.toNat
    else if 'a' ≤ c ∧ c ≤ 'f' then c.toNat - 'a'.toNat + 10
    else if 'A' ≤ c ∧ c ≤ 'F' then c.toNat - 'A'.toNat + 10
    else base
  if value < base then some value else none

def digits? (base : Nat) (text : List Char) : Option Nat :=
  if text.isEmpty then none
  else text.foldlM (fun n c => (digit? base c).map (base * n + ·)) 0

def bareNatural? (value : String) : Option Nat :=
  let unsigned := match value.toList with
    | '+' :: rest => rest
    | chars => chars
  match unsigned with
  | '0' :: 'x' :: rest => digits? 16 rest
  | '0' :: 'o' :: rest => digits? 8 rest
  | '0' :: 'b' :: rest => digits? 2 rest
  | ['0'] => some 0
  | '0' :: _ => none
  | chars => digits? 10 chars

def natural? : Document → Option Nat
  | integer value => value.toNat?
  | d => (d.written? .integer).bind bareNatural?

def isNullWord (value : String) : Bool :=
  ["null", "Null", "NULL", "~"].contains value

-- A value that may be absent. With the tag of an absent value nothing else can be written, and with
-- another tag there is a value.
def optional? {α : Type} (decode : Document → Option α) (d : Document) : Option (Option α) :=
  match d with
  | null => some none
  | bare value => if value.isEmpty || isNullWord value then some none else (decode d).map some
  | tagged true .absent value => if isNullWord value then some none else none
  | _ => (decode d).map some

def list? {α : Type} (decode : Document → Option α) : Document → Option (List α)
  | list items | series items => items.mapM decode
  | bare "" | tagged true _ "" => some []
  | _ => none

def setEntry {α : Type} (key : String) (value : α) : List (String × α) → List (String × α)
  | [] => [(key, value)]
  | (k, v) :: rest => if k = key then (k, value) :: rest else (k, v) :: setEntry key value rest

-- A table with free keys. The last value of a key counts and takes the place of the first.
def table? {α : Type} (decode : Document → Option α) : Document → Option (List (String × α))
  | table entries =>
    entries.foldlM (fun done (key, d) => (decode d).map (setEntry key · done)) []
  | bare "" | tagged true _ "" => some []
  | _ => none

def hasDuplicates : List String → Bool
  | [] => false
  | name :: rest => rest.contains name || hasDuplicates rest

-- A table of known keys, each at most once; other keys are ignored. A list gives the values of the
-- known keys in their order.
def record? (names : List String) : Document → Option (List (String × Document))
  | table entries =>
    let known := entries.filter (names.contains ·.1)
    if hasDuplicates (known.map (·.1)) then none else some known
  | list items => if items.length ≤ names.length then some (names.zip items) else none
  | bare "" | tagged true _ "" => some []
  | _ => none

def required? {α : Type} (record : List (String × Document)) (key : String)
    (decode : Document → Option α) : Option α :=
  (record.lookup key).bind decode

def defaulted? {α : Type} (record : List (String × Document)) (key : String)
    (decode : Document → Option α) (otherwise : α) : Option α :=
  match record.lookup key with
  | some d => decode d
  | none => some otherwise

end Document

end FieldAccess
