import FieldAccess.Document.Basic
import FieldAccess.Syntax.Decl

namespace FieldAccess

inductive TreeFault where
  | malformed (part : String)
  | type (error : TypeError)
deriving DecidableEq, Repr

namespace Tree

abbrev Reading :=
  Except TreeFault

def orMalformed {α : Type} (part : String) : Option α → Reading α
  | some a => pure a
  | none => throw (.malformed part)

def text : Document → Reading String
  | .str value => pure value
  | _ => throw (.malformed "text")

def flag : Document → Reading Bool
  | .bool value => pure value
  | _ => throw (.malformed "flag")

def items : Document → Reading (List Document)
  | .list items => pure items
  | _ => throw (.malformed "list")

def optional {α : Type} (read : Document → Reading α) : Document → Reading (Option α)
  | .null => pure none
  | d => some <$> read d

def texts (d : Document) : Reading (List String) := do
  (← items d).mapM text

def type (d : Document) : Reading TypeExpr := do
  let written ← text d
  (TypeExpr.parse written).mapError fun fault => .type ⟨written, fault⟩

def types (d : Document) : Reading (List TypeExpr) := do
  (← items d).mapM type

def span (d : Document) : Reading Span := do
  match (← text d).splitOn ":" with
  | [line, column] =>
    return ⟨← orMalformed "line" line.toNat?, ← orMalformed "column" column.toNat?⟩
  | _ => throw (.malformed "position")

def binaryOps : List BinaryOp :=
  [.add, .sub, .mul, .div, .mod, .bitAnd, .bitOr, .bitXor, .bitClear, .shiftLeft, .shiftRight, .eq,
   .ne, .lt, .le, .gt, .ge, .and, .or]

def unaryOps : List UnaryOp :=
  [.plus, .negate, .not, .complement, .addressOf, .deref]

def binaryOp (mark : String) : Reading BinaryOp :=
  orMalformed "operator" (binaryOps.find? (·.render = mark))

def unaryOp (mark : String) : Reading UnaryOp :=
  orMalformed "operator" (unaryOps.find? (·.render = mark))

def assignOp (mark : String) : Reading AssignOp := do
  match mark, mark.toList.getLast? with
  | "=", _ => return .assign
  | ":=", _ => return .define
  | mark, some '=' => return .compound (← binaryOp (String.ofList mark.toList.dropLast))
  | _, _ => throw (.malformed "assignment")

def literal (kind : String) (value : Document) : Reading Literal := do
  match kind with
  | "int" => return .int (← orMalformed "integer" (Decimal.int64? (← text value).toList))
  | "float" => return .float (← orMalformed "float" (Decimal.float? (← text value).toList))
  | "str" => return .string (← text value)
  | "bool" => return .bool (← flag value)
  | _ => throw (.malformed "expression")

mutual

def expr (d : Document) : Reading Expr := do
  match d with
  | .list [.str "nil", at_] => return .literal (← span at_) .nil
  | .list [.str kind, at_, only] =>
    match kind with
    | "id" => return .ident (← span at_) (← text only)
    | "par" => return .paren (← span at_) (← expr only)
    | "type" => return .typeOperand (← span at_) (← type only)
    | kind => return .literal (← span at_) (← literal kind only)
  | .list [.str "sel", at_, base, member] =>
    return .select (← span at_) (← expr base) (← text member)
  | .list [.str "idx", at_, base, i] => return .index (← span at_) (← expr base) (← expr i)
  | .list [.str "un", at_, op, operand] =>
    return .unary (← span at_) (← unaryOp (← text op)) (← expr operand)
  | .list [.str "comp", at_, composed, .list parts] =>
    return .composite (← span at_) (← type composed) (← elements parts)
  | .list [.str "bin", at_, op, left, right] =>
    return .binary (← span at_) (← binaryOp (← text op)) (← expr left) (← expr right)
  | .list [.str "call", at_, callee, typeArgs, .list args] =>
    return .call (← span at_) (← expr callee) (← types typeArgs) (← exprs args)
  | _ => throw (.malformed "expression")

def exprs (ds : List Document) : Reading (List Expr) := do
  match ds with
  | [] => return []
  | d :: rest =>
    let e ← expr d
    return e :: (← exprs rest)

def elements (ds : List Document) : Reading (List Element) := do
  match ds with
  | [] => return []
  | .list [.null, value] :: rest =>
    let value ← expr value
    return .positional value :: (← elements rest)
  | .list [key, value] :: rest =>
    let key ← expr key
    let value ← expr value
    return .keyed key value :: (← elements rest)
  | _ => throw (.malformed "element")

end

def exprList (d : Document) : Reading (List Expr) := do
  exprs (← items d)

mutual

def stmt (d : Document) : Reading Stmt := do
  match d with
  | .list [.str "expr", value] => return .expr (← expr value)
  | .list [.str kind, at_] =>
    match kind with
    | "empty" => return .empty (← span at_)
    | "break" => return .breakLoop (← span at_)
    | "continue" => return .continueLoop (← span at_)
    | _ => throw (.malformed "statement")
  | .list [.str "return", at_, values] => return .ret (← span at_) (← exprList values)
  | .list [.str "block", at_, .list statements] =>
    return .block (.mk (← span at_) (← stmts statements))
  | .list [.str "incdec", at_, increment, target] =>
    return .step (← span at_) (← expr target) (← flag increment)
  | .list [.str "assign", at_, op, targets, values] =>
    return .assign (← span at_) (← exprList targets) (← assignOp (← text op)) (← exprList values)
  | .list [.str "var", at_, names, declared, values] =>
    return .var (← span at_) (← texts names) (← optional type declared) (← exprList values)
  | .list [.str "switch", at_, init, tag, .list cases] =>
    return .switch (← span at_) (← header init) (← optional expr tag) (← caseList cases)
  | .list [.str "if", at_, init, cond, body, orElse] =>
    return .ifElse (← span at_) (← header init) (← expr cond) (← block body) (← header orElse)
  | .list [.str "for", at_, init, cond, post, body] =>
    return .forLoop (← span at_) (← header init) (← optional expr cond) (← header post)
      (← block body)
  | .list [.str "range", at_, key, value, define, iterable, body] =>
    return .range (← span at_) (← optional expr key) (← optional expr value) (← flag define)
      (← expr iterable) (← block body)
  | _ => throw (.malformed "statement")
termination_by (sizeOf d, 0)

def header (d : Document) : Reading (Option Stmt) := do
  match d with
  | .null => return none
  | d => return some (← stmt d)
termination_by (sizeOf d, 1)

def block (d : Document) : Reading Block := do
  match d with
  | .list [.str "block", at_, .list statements] => return .mk (← span at_) (← stmts statements)
  | _ => throw (.malformed "block")
termination_by (sizeOf d, 0)

def stmts (ds : List Document) : Reading (List Stmt) := do
  match ds with
  | [] => return []
  | d :: rest =>
    let s ← stmt d
    return s :: (← stmts rest)
termination_by (sizeOf ds, 0)

def caseList (ds : List Document) : Reading (List Case) := do
  match ds with
  | [] => return []
  | .list [at_, values, .list body] :: rest =>
    let first : Case := .mk (← span at_) (← exprList values) (← stmts body)
    return first :: (← caseList rest)
  | _ => throw (.malformed "case")
termination_by (sizeOf ds, 0)

end

def named {α : Type} (make : String → TypeExpr → α) (d : Document) : Reading α := do
  match d with
  | .list [name, declared] => return make (← text name) (← type declared)
  | _ => throw (.malformed "name and type")

def structField (d : Document) : Reading StructField := do
  match d with
  | .list [name, declared] => return ⟨← optional text name, ← type declared⟩
  | _ => throw (.malformed "field")

def part? (entries : List (String × Document)) (name : String) : Document :=
  (entries.lookup name).getD .null

def partList {α : Type} (entries : List (String × Document)) (name : String)
    (read : Document → Reading α) : Reading (List α) := do
  match part? entries name with
  | .null => return []
  | d => (← items d).mapM read

def func (d : Document) : Reading FuncDecl := do
  match d with
  | .table entries =>
    return {
      doc := ← optional text (part? entries "doc")
      receiver := ← optional (named Param.mk) (part? entries "receiver")
      name := ← text (part? entries "name")
      typeParams := ← partList entries "type_params" (named TypeParam.mk)
      params := ← partList entries "params" (named Param.mk)
      results := ← partList entries "results" type
      body := ← block (part? entries "body")
      span := ← span (part? entries "span") }
  | _ => throw (.malformed "function")

def decl (d : Document) : Reading Decl := do
  match d with
  | .list [.str "func", f] => return .func (← func f)
  | .list [.str "type", name, underlying] => return .defined (← text name) (← type underlying)
  | .list [.str "struct", name, fields] =>
    return .struct (← text name) (← (← items fields).mapM structField)
  | .list [.str "const", declared, names] => return .consts (← text declared) (← texts names)
  | .list [.str "var", name, value] => return .var (← text name) (← expr value)
  | _ => throw (.malformed "declaration")

end Tree

end FieldAccess
