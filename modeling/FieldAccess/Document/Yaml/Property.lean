import FieldAccess.Document.Yaml.Token

namespace FieldAccess.Document.Yaml

def isNameChar (c : Char) : Bool :=
  c.isAlphanum || c = '_' || c = '-'

def valueName? (text : List Char) : Option (String × List Char) :=
  let name := text.takeWhile isNameChar
  let rest := text.drop name.length
  if !name.isEmpty && (atGap rest || rest.head?.any "?:,]\x7d%@`".toList.contains) then
    some (String.ofList name, rest)
  else none

def octetCount? (first : Nat) : Option Nat :=
  if first < 0x80 then some 1
  else if first < 0xc0 then none
  else if first < 0xe0 then some 2
  else if first < 0xf0 then some 3
  else if first < 0xf8 then some 4
  else none

-- A character that stands for itself in a tag. Brackets and commas do so only in a tag that is
-- written in full.
def isTagChar (inFull : Bool) (c : Char) : Bool :=
  isNameChar c || ";/?:@&=+$.!~*'()".toList.contains c || (inFull && ",[]".toList.contains c)

-- Reads on in a tag. `value` holds what has been read, last first; so many octets of a character
-- are still to come. Octets are written with a percent sign and two hexadecimal digits, and kept
-- one by one.
def tagFrom (inFull : Bool) (octets : Nat) (value : List Char) :
    List Char → Option (String × List Char)
  | [] => if octets = 0 then some (String.ofList value.reverse, []) else none
  | '%' :: a :: b :: rest => do
    let octet ← digits? 16 [a, b]
    let octets ←
      if octets = 0 then (octetCount? octet).map (· - 1)
      else if 0x80 ≤ octet ∧ octet < 0xc0 then some (octets - 1)
      else none
    tagFrom inFull octets (Char.ofNat octet :: value) rest
  | c :: rest =>
    if octets ≠ 0 then none
    else if isTagChar inFull c then tagFrom inFull 0 (c :: value) rest
    else some (String.ofList value.reverse, c :: rest)

def tagText? (inFull : Bool) (text : List Char) : Option (String × List Char) :=
  (tagFrom inFull 0 [] text).filter fun (value, _) => !value.isEmpty

def handle? (text : List Char) : Option (String × List Char) :=
  let word := text.takeWhile isNameChar
  match text.drop word.length with
  | '!' :: rest => some (String.ofList ('!' :: (word ++ ['!'])), rest)
  | _ => none

def tagAfterMark? (text : List Char) : Option (String × String × List Char) :=
  match text with
  | '<' :: rest => do
    match ← tagText? true rest with
    | (suffix, '>' :: rest) => return ("", suffix, rest)
    | _ => none
  | _ =>
    match handle? text with
    | some (handle, rest) => (tagText? false rest).map (handle, ·)
    | none => do
      let (suffix, rest) ← tagFrom false 0 [] text
      return if suffix.isEmpty then ("", "!", rest) else ("!", suffix, rest)

-- A tag after its mark. Only between brackets and braces a comma may follow it directly.
def tag? (inFlow : Bool) (text : List Char) : Option (Token × List Char) := do
  let (handle, suffix, rest) ← tagAfterMark? text
  if atGap rest || (inFlow && rest.head? = some ',') then some (.tag handle suffix, rest) else none

def versionNumber? (text : List Char) : Option (Nat × List Char) := do
  let digits := text.takeWhile Char.isDigit
  if digits.length ≤ 9 then return (← digits? 10 digits, text.drop digits.length) else none

def directive? (text : List Char) : Option (Token × List Char) := do
  let name := text.takeWhile isNameChar
  let rest := text.drop name.length
  if !atGap rest then none
  else
    let value := rest.dropWhile isBlank
    if name = "YAML".toList then
      match ← versionNumber? value with
      | (major, '.' :: rest) =>
        let (minor, rest) ← versionNumber? rest
        return (.version major minor, rest)
      | _ => none
    else if name = "TAG".toList then
      match value with
      | '!' :: rest =>
        let (handle, rest) := (handle? rest).getD ("!", rest)
        if rest.head?.any isBlank then
          let (_, rest) ← tagText? true (rest.dropWhile isBlank)
          if atGap rest then some (.handle handle, rest) else none
        else none
      | _ => none
    else none

end FieldAccess.Document.Yaml
