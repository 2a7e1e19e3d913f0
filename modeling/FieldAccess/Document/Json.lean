import FieldAccess.Decimal.Layout
import FieldAccess.Document.Basic

namespace FieldAccess.Document

namespace Json

def isBlank (c : Char) : Bool :=
  c = ' ' || c = '\t' || c = '\n' || c = '\r'

def skipBlanks (text : List Char) : { rest : List Char // rest.length ≤ text.length } :=
  ⟨text.dropWhile isBlank, (List.dropWhile_suffix _).length_le⟩

def codeUnit? (a b c d : Char) : Option Nat :=
  digits? 16 [a, b, c, d]

def ofUnit? (unit : Nat) : Option Char :=
  if unit < 0xd800 ∨ 0xdfff < unit then some (Char.ofNat unit) else none

def ofPair? (high low : Nat) : Option Char :=
  if 0xd800 ≤ high ∧ high ≤ 0xdbff ∧ 0xdc00 ≤ low ∧ low ≤ 0xdfff then
    some (Char.ofNat (0x10000 + (high - 0xd800) * 0x400 + (low - 0xdc00)))
  else none

def escape? : Char → Option Char
  | '"' => some '"'
  | '\\' => some '\\'
  | '/' => some '/'
  | 'b' => some '\x08'
  | 'f' => some '\x0c'
  | 'n' => some '\n'
  | 'r' => some '\r'
  | 't' => some '\t'
  | _ => none

-- Puts a character before what has been read; without one the string cannot be read.
def addChar (c : Option Char) (value : Option (List Char)) : Option (List Char) := do
  return (← c) :: (← value)

-- A string after its opening quote, if it can be read, and what follows the closing quote. `value`
-- holds what has been read, last first.
def stringBody (value : Option (List Char)) :
    List Char → Option (Option (List Char) × List Char)
  | [] => none
  | '"' :: rest => some (value.map List.reverse, rest)
  | '\\' :: 'u' :: a :: b :: c :: d :: '\\' :: 'u' :: e :: f :: g :: h :: rest => do
    let first ← codeUnit? a b c d
    match (codeUnit? e f g h).bind (ofPair? first) with
    | some x => stringBody (addChar x value) rest
    | none => stringBody (addChar (ofUnit? first) value) ('\\' :: 'u' :: e :: f :: g :: h :: rest)
  | '\\' :: 'u' :: a :: b :: c :: d :: rest => do
    let unit ← codeUnit? a b c d
    stringBody (addChar (ofUnit? unit) value) rest
  | '\\' :: c :: rest => do
    let x ← escape? c
    stringBody (addChar x value) rest
  | c :: rest => if c.toNat < 0x20 then none else stringBody (addChar c value) rest
termination_by text => text.length

theorem length_stringBody_lt {value : Option (List Char)} {text : List Char}
    {read : Option (List Char) × List Char} (h : stringBody value text = some read) :
    read.2.length < text.length := by
  fun_induction stringBody value text with
  | case1 => simp at h
  | case2 => simp only [Option.some.injEq] at h; simp [← h]
  | case3 _ _ _ _ _ _ _ _ _ _ ih₂ ih₁ =>
    obtain ⟨first, _, h⟩ := Option.bind_eq_some_iff.1 h
    split at h
    · have := ih₂ _ h
      simp only [List.length_cons]
      omega
    · have := ih₁ _ h
      simp only [List.length_cons] at this ⊢
      omega
  | case4 _ _ _ _ _ _ _ ih =>
    obtain ⟨_, _, h⟩ := Option.bind_eq_some_iff.1 h
    have := ih _ h
    simp only [List.length_cons]
    omega
  | case5 _ _ _ _ _ ih =>
    obtain ⟨_, _, h⟩ := Option.bind_eq_some_iff.1 h
    have := ih _ h
    simp only [List.length_cons]
    omega
  | case6 => simp at h
  | case7 _ _ _ _ _ _ _ _ ih =>
    have := ih h
    simp only [List.length_cons]
    omega

def isNumberChar (c : Char) : Bool :=
  c.isDigit || c = '-' || c = '+' || c = '.' || c = 'e' || c = 'E'

def isWhole (text : List Char) : Bool :=
  Decimal.isDigits text && (text.length = 1 || text.head? != some '0')

def isExponent (text : List Char) : Bool :=
  Decimal.isDigits (Decimal.splitSign text).2

def number? (text : List Char) : Option Document := do
  let negative := text.head? = some '-'
  let size := if negative then text.tail else text
  let (mantissa, exponent) := Decimal.cutAt (fun c => c = 'e' || c = 'E') size
  let (whole, fraction) := Decimal.cutAt (· = '.') mantissa
  if isWhole whole && fraction.all Decimal.isDigits && exponent.all isExponent then
    let magnitude ← Decimal.decimal? size
    if magnitude.isInf then some .unreadable
    else if fraction.isNone && exponent.isNone && !(negative && whole = ['0']) then
      (Decimal.integer? text).map .integer
    else some (.decimal (if negative then -magnitude else magnitude))
  else none

theorem length_lt_of_skipBlanks {text rest : List Char} {c : Char}
    (h : (skipBlanks text).val = c :: rest) : rest.length < text.length := by
  have := (skipBlanks text).property
  rw [h, List.length_cons] at this
  omega

def eat (c : Char) (text : List Char) : Option { rest : List Char // rest.length < text.length } :=
  match h : (skipBlanks text).val with
  | d :: rest => if d = c then some ⟨rest, length_lt_of_skipBlanks h⟩ else none
  | [] => none

def eatWord (word text : List Char) : Option { rest : List Char // rest.length < text.length } :=
  match h : (skipBlanks text).val with
  | d :: rest =>
    if word.isPrefixOf (d :: rest) then some ⟨rest.drop (word.length - 1), by
      have := length_lt_of_skipBlanks h
      rw [List.length_drop]
      omega⟩
    else none
  | [] => none

def string (text : List Char) :
    Option (Option String × { rest : List Char // rest.length < text.length }) :=
  match eat '"' text with
  | none => none
  | some ⟨rest, lt⟩ =>
    match h : stringBody (some []) rest with
    | none => none
    | some (chars, after) =>
      some (chars.map String.ofList, ⟨after, Nat.lt_trans (length_stringBody_lt h) lt⟩)

def number (text : List Char) :
    Option (Document × { rest : List Char // rest.length < text.length }) :=
  match h : (skipBlanks text).val with
  | c :: rest =>
    (number? ((c :: rest).takeWhile isNumberChar)).map
      (·, ⟨rest.dropWhile isNumberChar, by
        have := (List.dropWhile_suffix isNumberChar (l := rest)).length_le
        have := length_lt_of_skipBlanks h
        omega⟩)
  | [] => none

def afterItem (close : Char) (text : List Char) :
    Option (Bool × { rest : List Char // rest.length < text.length }) :=
  match eat close text with
  | some rest => some (true, rest)
  | none => (eat ',' text).map (false, ·)

def tableOf (entries : List (Option String × Document)) : Document :=
  match entries.mapM fun (key, value) => key.map (·, value) with
  | some entries => .table entries
  | none => .unreadable

mutual

def value (text : List Char) :
    Option (Document × { rest : List Char // rest.length < text.length }) :=
  if let some (word, rest) := string text then some (word.elim .unreadable .str, rest)
  else if let some rest := eatWord ['n', 'u', 'l', 'l'] text then some (.null, rest)
  else if let some rest := eatWord ['t', 'r', 'u', 'e'] text then some (.bool true, rest)
  else if let some rest := eatWord ['f', 'a', 'l', 's', 'e'] text then some (.bool false, rest)
  else if let some ⟨rest, lt⟩ := eat '[' text then
    match eat ']' rest with
    | some ⟨after, lt'⟩ => some (.list [], ⟨after, Nat.lt_trans lt' lt⟩)
    | none => do
      let (items, ⟨after, lt'⟩) ← items rest
      return (.list items, ⟨after, Nat.lt_trans lt' lt⟩)
  else if let some ⟨rest, lt⟩ := eat '\x7b' text then
    match eat '\x7d' rest with
    | some ⟨after, lt'⟩ => some (.table [], ⟨after, Nat.lt_trans lt' lt⟩)
    | none => do
      let (entries, ⟨after, lt'⟩) ← entries rest
      return (tableOf entries, ⟨after, Nat.lt_trans lt' lt⟩)
  else number text
termination_by 2 * text.length

def items (text : List Char) :
    Option (List Document × { rest : List Char // rest.length < text.length }) := do
  let (first, ⟨rest, lt⟩) ← value text
  match afterItem ']' rest with
  | none => none
  | some (true, ⟨after, lt'⟩) => some ([first], ⟨after, Nat.lt_trans lt' lt⟩)
  | some (false, ⟨after, lt'⟩) =>
    let (more, ⟨rest, lt''⟩) ← items after
    some (first :: more, ⟨rest, Nat.lt_trans lt'' (Nat.lt_trans lt' lt)⟩)
termination_by 2 * text.length + 1

def entries (text : List Char) :
    Option (List (Option String × Document) × { rest : List Char // rest.length < text.length }) :=
    do
  let (key, ⟨rest, lt₁⟩) ← string text
  let ⟨rest, lt₂⟩ ← eat ':' rest
  let (first, ⟨rest, lt₃⟩) ← value rest
  let lt := Nat.lt_trans lt₃ (Nat.lt_trans lt₂ lt₁)
  match afterItem '\x7d' rest with
  | none => none
  | some (true, ⟨after, lt'⟩) => some ([(key, first)], ⟨after, Nat.lt_trans lt' lt⟩)
  | some (false, ⟨after, lt'⟩) =>
    let (more, ⟨rest, lt''⟩) ← entries after
    some ((key, first) :: more, ⟨rest, Nat.lt_trans lt'' (Nat.lt_trans lt' lt)⟩)
termination_by 2 * text.length + 1

end

def escapeChar (c : Char) : List Char :=
  if c = '"' then ['\\', '"']
  else if c = '\\' then ['\\', '\\']
  else if c = '\n' then ['\\', 'n']
  else if c.toNat < 0x20 then
    ['\\', 'u', '0', '0'] ++ [Nat.digitChar (c.toNat / 16), Nat.digitChar (c.toNat % 16)]
  else [c]

def quote (text : String) : String :=
  String.ofList ('"' :: (text.toList.flatMap escapeChar ++ ['"']))

end Json

def ofJson? (text : String) : Option Document := do
  let (document, ⟨rest, _⟩) ← Json.value text.toList
  if rest.all Json.isBlank then some document else none

mutual

-- The document in JSON, without blanks. What cannot be read and numbers that are not finite are
-- written as `null`.
def toJson : Document → String
  | null | unreadable => "null"
  | decimal value => if value.isFinite then Decimal.literal value else "null"
  | bool true => "true"
  | bool false => "false"
  | integer value => toString value
  | str value | bare value | tagged _ _ value => Json.quote value
  | list items | series items => "[" ++ ",".intercalate (itemsToJson items) ++ "]"
  | table entries => "\x7b" ++ ",".intercalate (entriesToJson entries) ++ "\x7d"

def itemsToJson : List Document → List String
  | [] => []
  | item :: rest => item.toJson :: itemsToJson rest

def entriesToJson : List (String × Document) → List String
  | [] => []
  | (key, d) :: rest => (Json.quote key ++ ":" ++ d.toJson) :: entriesToJson rest

end

end FieldAccess.Document
