import FieldAccess.Document.Yaml.Token

namespace FieldAccess.Document.Yaml

inductive Gap where
  | blanks (text : List Char)
  | lines (first : Option Char) (more : List Char)

namespace Gap

def addBlank (c : Char) : Gap → Gap
  | blanks text => blanks (text ++ [c])
  | lines first more => lines first more

def addLine (c : Char) : Gap → Gap
  | blanks _ => lines (some c) []
  | lines first more => lines first (more ++ [c])

def isEmpty : Gap → Bool
  | blanks text => text.isEmpty
  | lines .. => false

def isLines : Gap → Bool
  | blanks _ => false
  | lines .. => true

-- Of several line ends the first is dropped and the others are kept. U+2028 and U+2029, which are
-- not common to all systems, are always kept.
def text : Gap → List Char
  | blanks text => text
  | lines (some '\n') [] => [' ']
  | lines (some '\n') more => more
  | lines (some c) more => c :: more
  | lines none more => more

end Gap

structure Scanned where
  value : List Char
  newLine : Bool
  spot : Spot
  rest : List Char

-- Reads on in a plain scalar. `value` holds what has been read, last first, and `gap` what stands
-- after it; lines of a block have to start at the column `least` or further to the right.
def plainFrom (inFlow : Bool) (least : Nat) (value : List Char) (gap : Gap) (spot : Spot) :
    List Char → Option Scanned
  | [] => some ⟨value.reverse, gap.isLines, spot, []⟩
  | '\r' :: '\n' :: rest =>
    plainFrom inFlow least value (gap.addLine '\n') (spot.nextLine 2) rest
  | c :: rest =>
    if isBlank c then
      if c = '\t' && gap.isLines && spot.column < least then none
      else plainFrom inFlow least value (gap.addBlank c) (spot.right 1) rest
    else if isBreak c then
      plainFrom inFlow least value (gap.addLine (lineEnd c)) (spot.nextLine 1) rest
    else
      let outside := (!inFlow && spot.column < least) || c = '#' ||
        (spot.column = 0 && atDocumentMark (c :: rest))
      if !gap.isEmpty && outside then some ⟨value.reverse, gap.isLines, spot, c :: rest⟩
      else if inFlow && c = ':' && rest.head?.any (fun d => isFlowMark d || d = '?') then none
      else if (c = ':' && atGap rest) || (inFlow && isFlowMark c) then
        some ⟨value.reverse, gap.isLines, spot, c :: rest⟩
      else
        plainFrom inFlow least (c :: (gap.text.reverse ++ value)) (.blanks []) (spot.right 1) rest

def escape? : Char → Option Char
  | '0' => some '\x00'
  | 'a' => some '\x07'
  | 'b' => some '\x08'
  | 't' | '\t' => some '\t'
  | 'n' => some '\n'
  | 'v' => some '\x0b'
  | 'f' => some '\x0c'
  | 'r' => some '\r'
  | 'e' => some '\x1b'
  | ' ' => some ' '
  | '"' => some '"'
  | '/' => some '/'
  | '\\' => some '\\'
  | 'N' => some '\u0085'
  | '_' => some '\u00a0'
  | 'L' => some '\u2028'
  | 'P' => some '\u2029'
  | _ => none

def code? (digits : List Char) : Option Char :=
  (digits? 16 digits).bind fun n => if n.isValidChar then some (Char.ofNat n) else none

def doubleFrom (value : List Char) (gap : Gap) (spot : Spot) : List Char → Option Scanned
  | [] => none
  | '\r' :: '\n' :: rest => doubleFrom value (gap.addLine '\n') (spot.nextLine 2) rest
  | '\\' :: '\r' :: '\n' :: rest =>
    doubleFrom (gap.text.reverse ++ value) (.lines none []) ((spot.right 1).nextLine 2) rest
  | '\\' :: 'x' :: a :: b :: rest => do
    let c ← code? [a, b]
    doubleFrom (c :: (gap.text.reverse ++ value)) (.blanks []) (spot.right 4) rest
  | '\\' :: 'u' :: a :: b :: c :: d :: rest => do
    let c ← code? [a, b, c, d]
    doubleFrom (c :: (gap.text.reverse ++ value)) (.blanks []) (spot.right 6) rest
  | '\\' :: 'U' :: a :: b :: c :: d :: e :: f :: g :: h :: rest => do
    let c ← code? [a, b, c, d, e, f, g, h]
    doubleFrom (c :: (gap.text.reverse ++ value)) (.blanks []) (spot.right 10) rest
  | '\\' :: c :: rest =>
    let value := gap.text.reverse ++ value
    if isBreak c then doubleFrom value (.lines none []) ((spot.right 1).nextLine 1) rest
    else do
      let c ← escape? c
      doubleFrom (c :: value) (.blanks []) (spot.right 2) rest
  | c :: rest =>
    if isBlank c then doubleFrom value (gap.addBlank c) (spot.right 1) rest
    else if isBreak c then doubleFrom value (gap.addLine (lineEnd c)) (spot.nextLine 1) rest
    else if spot.column = 0 && atDocumentMark (c :: rest) then none
    else
      let value := gap.text.reverse ++ value
      if c = '"' then some ⟨value.reverse, false, spot.right 1, rest⟩
      else doubleFrom (c :: value) (.blanks []) (spot.right 1) rest

def singleFrom (value : List Char) (gap : Gap) (spot : Spot) : List Char → Option Scanned
  | [] => none
  | '\r' :: '\n' :: rest => singleFrom value (gap.addLine '\n') (spot.nextLine 2) rest
  | '\'' :: '\'' :: rest =>
    singleFrom ('\'' :: (gap.text.reverse ++ value)) (.blanks []) (spot.right 2) rest
  | c :: rest =>
    if isBlank c then singleFrom value (gap.addBlank c) (spot.right 1) rest
    else if isBreak c then singleFrom value (gap.addLine (lineEnd c)) (spot.nextLine 1) rest
    else if spot.column = 0 && atDocumentMark (c :: rest) then none
    else
      let value := gap.text.reverse ++ value
      if c = '\'' then some ⟨value.reverse, false, spot.right 1, rest⟩
      else singleFrom (c :: value) (.blanks []) (spot.right 1) rest

end FieldAccess.Document.Yaml
