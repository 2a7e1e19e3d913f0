import FieldAccess.Document.Yaml.Block
import FieldAccess.Document.Yaml.Property

namespace FieldAccess.Document.Yaml

-- How far the colon may be from the start of its key.
def maxKeySize : Nat := 1024

-- Whether a value is a key shows only at the colon after it. Until then it is a candidate; the
-- colon has to come on the same line and within `maxKeySize` characters.
structure Candidate where
  place : Nat
  spot : Spot
  required : Bool

def Candidate.isStale (k : Candidate) (spot : Spot) : Bool :=
  k.spot.line < spot.line || k.spot.offset + maxKeySize < spot.offset

def Candidate.current? (spot : Spot) : Option Candidate → Option (Option Candidate)
  | none => some none
  | some k => if !k.isStale spot then some (some k) else if k.required then none else some none

structure Lexing where
  tokens : List Token := []
  size : Nat := 0
  columns : List Nat := []
  candidate : Option Candidate := none
  outer : List (Option Candidate) := []
  keyAllowed : Bool := true

namespace Lexing

def inFlow (l : Lexing) : Bool :=
  !l.outer.isEmpty

def push (l : Lexing) (t : Token) : Lexing :=
  { l with tokens := t :: l.tokens, size := l.size + 1 }

def insert (l : Lexing) (place : Nat) (t : Token) : Lexing :=
  let later := l.size - place
  { l with tokens := l.tokens.take later ++ t :: l.tokens.drop later, size := l.size + 1 }

def expire? (l : Lexing) (spot : Spot) : Option Lexing := do
  return { l with
    candidate := ← Candidate.current? spot l.candidate
    outer := ← l.outer.mapM (Candidate.current? spot) }

def dropCandidate? (l : Lexing) : Option Lexing :=
  if l.candidate.any (·.required) then none else some { l with candidate := none }

def noteCandidate? (l : Lexing) (spot : Spot) : Option Lexing :=
  if l.keyAllowed then do
    let l ← l.dropCandidate?
    let required := !l.inFlow && l.columns.head? = some spot.column
    return { l with candidate := some ⟨l.size, spot, required⟩ }
  else some l

def closeFrom (l : Lexing) (least : Nat) : Lexing :=
  if l.inFlow then l
  else
    let ended := l.columns.takeWhile (least ≤ ·)
    { l with
      tokens := List.replicate ended.length .blockEnd ++ l.tokens
      size := l.size + ended.length
      columns := l.columns.drop ended.length }

-- Starts a block collection before the token at `place`, unless it is open already.
def openAt (l : Lexing) (column place : Nat) (start : Token) : Lexing :=
  if !l.inFlow && l.columns.head?.all (· < column) then
    { l.insert place start with columns := column :: l.columns }
  else l

-- Takes the mark of an item or a key, which in a block may stand only where a key may.
def mark? (l : Lexing) (spot : Spot) (start : Token) : Option Lexing :=
  if l.inFlow then some l
  else if l.keyAllowed then some (l.openAt spot.column l.size start)
  else none

def colon? (l : Lexing) (spot : Spot) : Option Lexing :=
  match l.candidate with
  | some k =>
    let l := (l.insert k.place .key).openAt k.spot.column k.place .blockTableStart
    some ({ l with candidate := none, keyAllowed := false }.push .colon)
  | none => do
    let l ← l.mark? spot .blockTableStart
    return { l with keyAllowed := !l.inFlow }.push .colon

def openFlow? (l : Lexing) (spot : Spot) (start : Token) : Option Lexing := do
  let l ← l.noteCandidate? spot
  let outer := l.candidate :: l.outer
  return { l with candidate := none, outer, keyAllowed := true }.push start

def closeFlow? (l : Lexing) (stop : Token) : Option Lexing := do
  let l ← l.dropCandidate?
  let l := match l.outer with
    | [] => l
    | candidate :: outer => { l with candidate, outer }
  return { l with keyAllowed := false }.push stop

def takeScalar (l : Lexing) (style : Style) (s : Scanned) : Lexing × Spot × List Char :=
  ({ l with keyAllowed := s.newLine }.push (.scalar style (String.ofList s.value)), s.spot, s.rest)

def takeProperty? (l : Lexing) (spot : Spot) (text : List Char) (t : Token) (rest : List Char) :
    Option (Lexing × Spot × List Char) := do
  let l ← l.noteCandidate? spot
  return ({ l with keyAllowed := false }.push t, spot.right (1 + text.length - rest.length), rest)

end Lexing

def startsPlain (inFlow : Bool) (c : Char) (rest : List Char) : Bool :=
  if c = '-' then !atGap rest
  else if c = '?' || c = ':' then !inFlow && !atGap rest
  else !isBlank c && !isBreak c && !isFlowMark c && !"#&*!|>'\"%@`".toList.contains c

def Lexing.next? (l : Lexing) (spot : Spot) : List Char → Option (Lexing × Spot × List Char)
  | [] => none
  | c :: rest =>
    if spot.column = 0 && c = '%' then do
      let l ← (l.closeFrom 0).dropCandidate?
      let (t, value) ← directive? rest
      let (spot, text) ← restOfLine? (spot.right (1 + rest.length - value.length)) value
      return ({ l with keyAllowed := false }.push t, spot, text)
    else if spot.column = 0 && atDocumentMark (c :: rest) then do
      let l ← (l.closeFrom 0).dropCandidate?
      let mark := if c = '-' then Token.documentStart else .documentEnd
      return ({ l with keyAllowed := false }.push mark, spot.right 3, rest.drop 2)
    else if c = '[' then do return (← l.openFlow? spot .listStart, spot.right 1, rest)
    else if c = '\x7b' then do return (← l.openFlow? spot .tableStart, spot.right 1, rest)
    else if c = ']' then do return (← l.closeFlow? .listEnd, spot.right 1, rest)
    else if c = '\x7d' then do return (← l.closeFlow? .tableEnd, spot.right 1, rest)
    else if c = ',' then do
      let l ← l.dropCandidate?
      return ({ l with keyAllowed := true }.push .comma, spot.right 1, rest)
    else if c = '-' && atGap rest then do
      let l ← (← l.mark? spot .blockListStart).dropCandidate?
      return ({ l with keyAllowed := true }.push .dash, spot.right 1, rest)
    else if c = '?' && (l.inFlow || atGap rest) then do
      let l ← (← l.mark? spot .blockTableStart).dropCandidate?
      return ({ l with keyAllowed := !l.inFlow }.push .key, spot.right 1, rest)
    else if c = ':' && (l.inFlow || atGap rest) then do
      return (← l.colon? spot, spot.right 1, rest)
    else if c = '&' then do
      let (name, after) ← valueName? rest
      l.takeProperty? spot rest (.anchor name) after
    else if c = '*' then do
      let (name, after) ← valueName? rest
      l.takeProperty? spot rest (.reference name) after
    else if c = '!' then do
      let (t, after) ← tag? l.inFlow rest
      l.takeProperty? spot rest t after
    else if !l.inFlow && c = '|' then do
      let l ← l.dropCandidate?
      return l.takeScalar .literal (← block? false l.columns.head? (spot.right 1) rest)
    else if !l.inFlow && c = '>' then do
      let l ← l.dropCandidate?
      return l.takeScalar .folded (← block? true l.columns.head? (spot.right 1) rest)
    else if c = '"' then do
      let l ← l.noteCandidate? spot
      return l.takeScalar .quoted (← doubleFrom [] (.blanks []) (spot.right 1) rest)
    else if c = '\'' then do
      let l ← l.noteCandidate? spot
      return l.takeScalar .quoted (← singleFrom [] (.blanks []) (spot.right 1) rest)
    else if startsPlain l.inFlow c rest then do
      let l ← l.noteCandidate? spot
      let least := l.columns.head?.elim 0 (· + 1)
      return l.takeScalar .plain (← plainFrom l.inFlow least [] (.blanks []) spot (c :: rest))
    else none

-- Passes blanks, line breaks and comments. In a block no tab may stand where a key may, and a key
-- may start on a new line. Gives whether a key may start after them, and what follows.
def skipGap (inFlow comment keyAllowed : Bool) (spot : Spot) :
    List Char → Bool × Spot × List Char
  | [] => (keyAllowed, spot, [])
  | '\r' :: '\n' :: rest => skipGap inFlow false (keyAllowed || !inFlow) (spot.nextLine 2) rest
  | c :: rest =>
    if isBreak c then skipGap inFlow false (keyAllowed || !inFlow) (spot.nextLine 1) rest
    else if comment then skipGap inFlow true keyAllowed (spot.right 1) rest
    else if c = ' ' || (c = '\t' && (inFlow || !keyAllowed)) ||
        (c = '\ufeff' && spot.column = 0) then
      skipGap inFlow false keyAllowed (spot.right 1) rest
    else if c = '#' then skipGap inFlow true keyAllowed (spot.right 1) rest
    else (keyAllowed, spot, c :: rest)

def Lexing.run : Nat → Lexing → Spot → List Char → Option (List Token)
  | 0, _, _, _ => none
  | steps + 1, l, spot, text => do
    let (keyAllowed, spot, text) := skipGap l.inFlow false l.keyAllowed spot text
    let l := (← { l with keyAllowed }.expire? spot).closeFrom (spot.column + 1)
    if text.isEmpty then
      return (← (l.closeFrom 0).dropCandidate?).tokens.reverse
    else
      let (l, spot, text) ← l.next? spot text
      l.run steps spot text

def tokens? (text : String) : Option (List Token) :=
  let chars := text.toList
  if chars.all isAllowed then Lexing.run (chars.length + 1) {} {} chars else none

end FieldAccess.Document.Yaml
