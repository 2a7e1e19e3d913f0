import FieldAccess.Decimal.Layout
import FieldAccess.Source.Parser.Decl
import FieldAccess.Syntax.Decl
import FieldAccess.Text.Quoted

namespace FieldAccess

def Literal.render : Literal → String
  | int value => toString value.toInt
  | float value => Decimal.literal value
  | string text => Text.quote text
  | bool true => "true"
  | bool false => "false"
  | nil => "nil"

def TypeExpr.renderList (types : List TypeExpr) : String :=
  ", ".intercalate (types.map TypeExpr.render)

namespace Expr

mutual

def render : Expr → String
  | ident _ name => name
  | literal _ value => value.render
  | select _ base member => base.renderOperand 7 ++ "." ++ member
  | call _ callee typeArgs args =>
    let types := if typeArgs.isEmpty then "" else "[" ++ TypeExpr.renderList typeArgs ++ "]"
    callee.renderOperand 7 ++ types ++ "(" ++ ", ".intercalate (renderAll args) ++ ")"
  | index _ base i => base.renderOperand 7 ++ "[" ++ i.render ++ "]"
  | binary _ op left right =>
    left.renderOperand op.precedence ++ " " ++ op.render ++ " " ++
      right.renderOperand (op.precedence + 1)
  | unary _ op operand => op.render ++ operand.renderOperand 6
  | paren _ inner => "(" ++ inner.render ++ ")"
  | composite _ type elements =>
    type.render ++ "\x7b" ++ ", ".intercalate (renderElements elements) ++ "\x7d"
  | typeOperand _ type => type.render

def renderOperand (e : Expr) (least : Nat) : String :=
  if e.precedence < least then "(" ++ e.render ++ ")" else e.render

def renderAll : List Expr → List String
  | [] => []
  | e :: rest => e.render :: renderAll rest

def renderElements : List Element → List String
  | [] => []
  | .positional value :: rest => value.render :: renderElements rest
  | .keyed key value :: rest => (key.render ++ ": " ++ value.render) :: renderElements rest

end

def renderList (es : List Expr) : String :=
  ", ".intercalate (renderAll es)

end Expr

structure Line where
  level : Nat
  text : String

namespace Line

def indent (line : Line) : Line :=
  { line with level := line.level + 1 }

def render (line : Line) : String :=
  String.ofList (List.replicate (4 * line.level) ' ') ++ line.text ++ "\n"

def renderAll (lines : List Line) : String :=
  String.join (lines.map render)

def trimEnd (text : String) : String :=
  String.ofList (text.toList.reverse.dropWhile Text.isBlank).reverse

end Line

namespace Stmt

def filled (slot : Option Stmt) : Bool :=
  slot.any (!·.isEmpty)

def renderSimple? : Stmt → Option String
  | empty _ => some ""
  | expr value => some value.render
  | assign _ targets op values =>
    some (Expr.renderList targets ++ " " ++ op.render ++ " " ++ Expr.renderList values)
  | step _ target increment => some (target.render ++ if increment then "++" else "--")
  | var _ names type values =>
    let type := type.elim "" (" " ++ ·.render)
    let values := if values.isEmpty then "" else " = " ++ Expr.renderList values
    some ("var " ++ ", ".intercalate names ++ type ++ values)
  | ret _ values => some (if values.isEmpty then "return" else "return " ++ Expr.renderList values)
  | breakLoop _ => some "break"
  | continueLoop _ => some "continue"
  | _ => none

def loopHeader (init cond post : Option String) : String :=
  match init, cond, post with
  | none, none, none => "for \x7b"
  | none, some cond, none => "for " ++ cond ++ " \x7b"
  | init, cond, post =>
    "for " ++ init.getD "" ++ "; " ++ cond.getD "" ++ ";" ++ post.elim "" (" " ++ ·) ++ " \x7b"

def rangeHeader (key value : Option String) (define : Bool) (iterable : String) : String :=
  let op := if define then " := " else " = "
  match key, value with
  | none, none => "for range " ++ iterable ++ " \x7b"
  | key, value =>
    "for " ++ key.getD "_" ++ value.elim "" (", " ++ ·) ++ op ++ "range " ++ iterable ++ " \x7b"

def asBranch (isElse : Bool) (lines : List Line) : List Line :=
  if isElse then ⟨0, "\x7d else \x7b"⟩ :: (lines.map Line.indent ++ [⟨0, "\x7d"⟩]) else lines

mutual

-- The lines of a statement. Those of an else branch start with the brace that closes the branch
-- before it.
def linesAs (isElse : Bool) : Stmt → List Line
  | empty _ => asBranch isElse []
  | block body =>
    ⟨0, if isElse then "\x7d else \x7b" else "\x7b"⟩ :: (blockLines body ++ [⟨0, "\x7d"⟩])
  | ifElse _ init cond body orElse =>
    let lead := if isElse then "\x7d else if " else "if "
    let init := (slotText init).elim "" (· ++ "; ")
    ⟨0, lead ++ init ++ cond.render ++ " \x7b"⟩ :: (blockLines body ++ elseLines orElse)
  | forLoop _ init cond post body =>
    let header := loopHeader (slotText init) (cond.map Expr.render) (slotText post)
    asBranch isElse (⟨0, header⟩ :: (blockLines body ++ [⟨0, "\x7d"⟩]))
  | range _ key value define iterable body =>
    let header :=
      rangeHeader (key.map Expr.render) (value.map Expr.render) define iterable.render
    asBranch isElse (⟨0, header⟩ :: (blockLines body ++ [⟨0, "\x7d"⟩]))
  | switch _ init tag cases =>
    let init := (slotText init).elim "" (· ++ "; ")
    let tag := tag.elim "" (·.render ++ " ")
    let header := "switch " ++ init ++ tag ++ "\x7b"
    asBranch isElse (⟨0, header⟩ :: (caseLines cases ++ [⟨0, "\x7d"⟩]))
  | s => asBranch isElse [⟨0, s.renderSimple?.getD ""⟩]

def elseLines : Option Stmt → List Line
  | none => [⟨0, "\x7d"⟩]
  | some s => s.linesAs true

def slotText : Option Stmt → Option String
  | none => none
  | some (.empty _) => none
  | some s => some (s.renderSimple?.getD (Line.trimEnd (Line.renderAll (s.linesAs false))))

def blockLines : Block → List Line
  | .mk _ statements => (allLines statements).map Line.indent

def allLines : List Stmt → List Line
  | [] => []
  | s :: rest => s.linesAs false ++ allLines rest

def caseLines : List Case → List Line
  | [] => []
  | .mk _ values body :: rest =>
    let label := if values.isEmpty then "default:" else "case " ++ Expr.renderList values ++ ":"
    ⟨0, label⟩ :: ((allLines body).map Line.indent ++ caseLines rest)

end

def lines (s : Stmt) : List Line :=
  s.linesAs false

def render (s : Stmt) : String :=
  Line.renderAll s.lines

end Stmt

def Block.renderBody (b : Block) : String :=
  Line.renderAll (Stmt.allLines b.statements)

namespace FuncDecl

def header (f : FuncDecl) : String :=
  let receiver := f.receiver.elim "" fun r => "(" ++ r.name ++ " " ++ r.type.render ++ ") "
  let typeParams := f.typeParams.map fun p => p.name ++ " " ++ p.bound.render
  let typeParams := if typeParams.isEmpty then "" else "[" ++ ", ".intercalate typeParams ++ "]"
  let params := f.params.map fun p => p.name ++ " " ++ p.type.render
  let results := match f.results with
    | [] => ""
    | [type] => " " ++ type.render
    | types => " (" ++ TypeExpr.renderList types ++ ")"
  "func " ++ receiver ++ f.name ++ typeParams ++ "(" ++ ", ".intercalate params ++ ")" ++ results ++
    " \x7b"

def trimReturn (line : String) : String :=
  if line.endsWith "\r" then String.ofList line.toList.dropLast else line

def docLines (doc : String) : List String :=
  match (doc.splitOn "\n").reverse with
  | [] => []
  | last :: before =>
    let ended := before.reverse.map trimReturn
    if last.isEmpty then ended else ended ++ [last]

def lines (f : FuncDecl) : List Line :=
  ((f.doc.map docLines).getD []).map (⟨0, "// " ++ ·⟩) ++
    ⟨0, f.header⟩ :: (Stmt.blockLines f.body ++ [⟨0, "\x7d"⟩])

def render (f : FuncDecl) : String :=
  Line.renderAll f.lines

-- Two minus signs in a row are printed without a blank between them, as a decrement that no
-- expression starts with.
theorem printed_text_refused :
    ∃ f, parseAll "func F(x int) int \x7b\n return - -x\n\x7d" = .ok [f] ∧
      f.render = "func F(x int) int \x7b\n    return --x\n\x7d\n" ∧
      ∀ fs, parseAll f.render ≠ .ok fs := by
  let value : Expr := .unary ⟨2, 9⟩ .negate (.unary ⟨2, 11⟩ .negate (.ident ⟨2, 12⟩ "x"))
  let f : FuncDecl :=
    ⟨none, none, "F", [], [⟨"x", .int⟩], [.int], .mk ⟨1, 19⟩ [.ret ⟨2, 2⟩ [value]], ⟨1, 1⟩⟩
  have parsed : parseAll "func F(x int) int \x7b\n return - -x\n\x7d" = .ok [f] := by
    with_unfolding_all rfl
  have text : Expr.renderAll [value] = ["--x"] := by
    simp [value, Expr.renderAll, Expr.render, Expr.renderOperand, Expr.precedence, UnaryOp.render]
  have statement : Stmt.linesAs false (.ret ⟨2, 2⟩ [value]) = [⟨0, "return --x"⟩] := by
    simp [Stmt.linesAs, Stmt.asBranch, Stmt.renderSimple?, Expr.renderList, text]
  have printed : f.render = "func F(x int) int \x7b\n    return --x\n\x7d\n" := by
    simp only [render, lines, f, Stmt.blockLines, Stmt.allLines, statement]
    with_unfolding_all rfl
  have refused : (parseAll "func F(x int) int \x7b\n    return --x\n\x7d\n").toOption.isNone := by
    decide +kernel
  refine ⟨f, parsed, printed, fun fs again => ?_⟩
  rw [← printed, again] at refused
  cases refused

end FuncDecl

namespace Decl

def fieldLine (field : StructField) : Line :=
  ⟨1, field.name.elim "" (· ++ " ") ++ field.type.render⟩

def constLines (type : String) : List String → List Line
  | [] => []
  | first :: rest => ⟨1, first ++ " " ++ type ++ " = iota"⟩ :: rest.map (⟨1, ·⟩)

def lines : Decl → List Line
  | func f => f.lines
  | defined name underlying => [⟨0, "type " ++ name ++ " " ++ underlying.render⟩]
  | struct name fields =>
    ⟨0, "type " ++ name ++ " struct \x7b"⟩ :: (fields.map fieldLine ++ [⟨0, "\x7d"⟩])
  | consts type names => ⟨0, "const ("⟩ :: (constLines type names ++ [⟨0, ")"⟩])
  | var name value => [⟨0, "var " ++ name ++ " = " ++ value.render⟩]

def render (d : Decl) : String :=
  Line.renderAll d.lines

def renderAll (ds : List Decl) : String :=
  "\n".intercalate (ds.map render)

end Decl

end FieldAccess
