import FieldAccess.Document.Basic

namespace FieldAccess.Document.Yaml

inductive Style where
  | plain
  | quoted
  | literal
  | folded

-- What a text is read as before its nesting is known. Indentation shows as the start and the end of
-- block collections.
inductive Token where
  | version (major minor : Nat)
  | handle (name : String)
  | documentStart
  | documentEnd
  | blockListStart
  | blockTableStart
  | blockEnd
  | listStart
  | listEnd
  | tableStart
  | tableEnd
  | dash
  | comma
  | key
  | colon
  | anchor (name : String)
  | reference (name : String)
  | tag (handle suffix : String)
  | scalar (style : Style) (value : String)

def isAllowed (c : Char) : Bool :=
  c = '\t' || c = '\n' || c = '\r' || c = '\u0085' || (' ' ≤ c && c ≤ '~') ||
    ('\u00a0' ≤ c && c ≤ '\ufffd') || 0x10000 ≤ c.toNat

def isBlank (c : Char) : Bool :=
  c = ' ' || c = '\t'

def isBreak (c : Char) : Bool :=
  c = '\n' || c = '\r' || c = '\u0085' || c = '\u2028' || c = '\u2029'

def atGap (text : List Char) : Bool :=
  text.head?.all fun c => isBlank c || isBreak c

-- Whether a text starts with the mark of the start or the end of a document. Such a mark counts at
-- the start of a line.
def atDocumentMark : List Char → Bool
  | '-' :: '-' :: '-' :: rest => atGap rest
  | '.' :: '.' :: '.' :: rest => atGap rest
  | _ => false

def isFlowMark (c : Char) : Bool :=
  c = ',' || c = '[' || c = ']' || c = '\x7b' || c = '\x7d'

def lineEnd (c : Char) : Char :=
  if c = '\u2028' || c = '\u2029' then c else '\n'

structure Spot where
  offset : Nat := 0
  line : Nat := 0
  column : Nat := 0

namespace Spot

def right (s : Spot) (size : Nat) : Spot :=
  { s with offset := s.offset + size, column := s.column + size }

def nextLine (s : Spot) (size : Nat) : Spot where
  offset := s.offset + size
  line := s.line + 1

end Spot

def lineBreak? (spot : Spot) : List Char → Option (Char × Spot × List Char)
  | '\r' :: '\n' :: rest => some ('\n', spot.nextLine 2, rest)
  | c :: rest => if isBreak c then some (lineEnd c, spot.nextLine 1, rest) else none
  | [] => none

def restOfLine? (spot : Spot) (text : List Char) : Option (Spot × List Char) :=
  let comment := text.dropWhile isBlank
  let rest := if comment.head? = some '#' then comment.dropWhile (!isBreak ·) else comment
  let spot := spot.right (text.length - rest.length)
  if rest.isEmpty then some (spot, []) else (lineBreak? spot rest).map (·.2)

end FieldAccess.Document.Yaml
