import FieldAccess.Document.Yaml.Scalar

namespace FieldAccess.Document.Yaml

inductive Chomping where
  | clip
  | strip
  | keep

def takeChomping : List Char → Chomping × List Char
  | '-' :: rest => (.strip, rest)
  | '+' :: rest => (.keep, rest)
  | text => (.clip, text)

-- How much further to the right than the lines around it a block stands; zero if this is not given.
def takeDepth : List Char → Nat × List Char
  | c :: rest => if '1' ≤ c && c ≤ '9' then (c.toNat - '0'.toNat, rest) else (0, c :: rest)
  | [] => (0, [])

def takeHeader (text : List Char) : Chomping × Nat × List Char :=
  match takeChomping text with
  | (.clip, _) =>
    let (depth, rest) := takeDepth text
    let (chomping, rest) := takeChomping rest
    (chomping, depth, rest)
  | (chomping, rest) => (chomping, takeDepth rest)

structure Margin where
  deepest : Nat
  emptyLines : List Char
  spot : Spot
  rest : List Char

-- Passes empty lines and indentation up to the column `indent`, or any if it is not known yet. No
-- tab may stand there.
def marginFrom (indent : Option Nat) (deepest : Nat) (emptyLines : List Char) (spot : Spot) :
    List Char → Option Margin
  | [] => some ⟨max deepest spot.column, emptyLines, spot, []⟩
  | '\r' :: '\n' :: rest =>
    marginFrom indent (max deepest spot.column) (emptyLines ++ ['\n']) (spot.nextLine 2) rest
  | c :: rest =>
    let isIndent := indent.all (spot.column < ·)
    if isIndent && c = ' ' then marginFrom indent deepest emptyLines (spot.right 1) rest
    else if isIndent && c = '\t' then none
    else if isBreak c then
      let emptyLines := emptyLines ++ [lineEnd c]
      marginFrom indent (max deepest spot.column) emptyLines (spot.nextLine 1) rest
    else some ⟨max deepest spot.column, emptyLines, spot, c :: rest⟩

structure Block where
  value : List Char := []
  lineEnd : List Char := []
  emptyLines : List Char
  isSpaced : Bool := false

namespace Block

-- In a folded block a line end stands for one blank, or for nothing if empty lines follow, except
-- beside lines that start with a blank.
def add (b : Block) (folded : Bool) (line lineEnd emptyLines : List Char) : Block :=
  let isSpaced := line.head?.any isBlank
  let gap :=
    if !folded || b.lineEnd != ['\n'] || b.isSpaced || isSpaced then b.lineEnd ++ b.emptyLines
    else if b.emptyLines.isEmpty then [' ']
    else b.emptyLines
  { value := line.reverse ++ gap.reverse ++ b.value, lineEnd, emptyLines, isSpaced }

def text (b : Block) : Chomping → List Char
  | .clip => b.value.reverse ++ b.lineEnd
  | .strip => b.value.reverse
  | .keep => b.value.reverse ++ b.lineEnd ++ b.emptyLines

def run (folded : Bool) (indent : Nat) : Nat → Block → Spot → List Char →
    Option (Block × Spot × List Char)
  | 0, _, _, _ => none
  | lines + 1, b, spot, text =>
    if spot.column = indent && !text.isEmpty then do
      let line := text.takeWhile (!isBreak ·)
      let rest := text.drop line.length
      let spot := spot.right line.length
      let (lineEnd, spot, rest) := match lineBreak? spot rest with
        | some (c, spot, rest) => ([c], spot, rest)
        | none => ([], spot, rest)
      let margin ← marginFrom (some indent) 0 [] spot rest
      let b := b.add folded line lineEnd margin.emptyLines
      b.run folded indent lines margin.spot margin.rest
    else some (b, spot, text)

end Block

def block? (folded : Bool) (outer : Option Nat) (spot : Spot) (text : List Char) :
    Option Scanned := do
  let (chomping, depth, rest) := takeHeader text
  let (spot, rest) ← restOfLine? (spot.right (text.length - rest.length)) rest
  let given := if depth = 0 then none else some (outer.getD 0 + depth)
  let margin ← marginFrom given 0 [] spot rest
  let indent := given.getD (max margin.deepest (outer.elim 1 (· + 1)))
  let start : Block := { emptyLines := margin.emptyLines }
  let (b, spot, rest) ←
    start.run folded indent (margin.rest.length + 1) margin.spot margin.rest
  return ⟨b.text chomping, true, spot, rest⟩

end FieldAccess.Document.Yaml
