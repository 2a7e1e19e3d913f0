import FieldAccess.Source.Parser.Decl

namespace FieldAccess

-- What the parser keeps.
structure Cursor where
  tokens : List Token
  pos : Nat
  noComposite : Bool

abbrev Reading (α : Type) : Type :=
  ExceptT SyntaxError (StateT Cursor Option) α

namespace Reading

def peekAt (offset : Nat) : Reading TokenKind := do
  let c ← get
  return (c.tokens[c.pos + offset]?.map Token.kind).getD .eof

def peek : Reading TokenKind :=
  peekAt 0

-- The position of the next token, or of the last where there is none.
def here : Reading Span := do
  let c ← get
  return ((c.tokens[c.pos]? <|> c.tokens.getLast?).map Token.span).getD .nowhere

def advance : Reading Unit :=
  modify fun c => { c with pos := c.pos + 1 }

def atSymbol (mark : Symbol) : Reading Bool := do
  match ← peek with
  | .symbol m => return m = mark
  | _ => return false

def atKeyword (word : Keyword) : Reading Bool := do
  match ← peek with
  | .keyword w => return w = word
  | _ => return false

def atEnd : Reading Bool := do
  match ← peek with
  | .eof => return true
  | _ => return false

def forbidsComposites : Reading Bool := do
  return (← get).noComposite

def unexpected {α : Type} (what : Expectation) : Reading α := do
  throw ⟨← here, .expected what (← peek)⟩

def eat (mark : Symbol) : Reading Bool := do
  if ← atSymbol mark then
    advance
    return true
  else return false

def eatWord (word : Keyword) : Reading Bool := do
  if ← atKeyword word then
    advance
    return true
  else return false

def symbol (mark : Symbol) : Reading Unit := do
  if ← eat mark then return ()
  else unexpected (.symbol mark)

def keyword (word : Keyword) : Reading Unit := do
  if ← eatWord word then return ()
  else unexpected (.keyword word)

def identifier : Reading String := do
  match ← peek with
  | .ident name => do
    advance
    return name
  | _ => unexpected .identifier

def skipComma : Reading Unit := do
  let _ ← eat .comma
  return ()

-- Allows or forbids composite literals, and returns what held before.
def enter (allowed : Bool) : StateT Cursor Option Bool :=
  modifyGet fun c => (c.noComposite, { c with noComposite := !allowed })

-- Takes back what held before, whatever the outcome.
def leave {α : Type} (saved : Bool) (outcome : Except SyntaxError α) :
    StateT Cursor Option (Except SyntaxError α) :=
  modifyGet fun c => (outcome, { c with noComposite := saved })

abbrev withComposites {α : Type} (allowed : Bool) (x : Reading α) : Reading α :=
  (enter allowed >>= fun saved => x.run >>= leave saved : StateT Cursor Option (Except SyntaxError α))

def typeName : Reading TypeExpr := do
  let name ← identifier
  match ← peek, ← peekAt 1 with
  | .symbol .dot, .ident _ => do
    advance
    return .named (name ++ "." ++ (← identifier))
  | _, _ => return .named name

-- The procedures for lists, types and expressions that call themselves or one another.
inductive ExprRule : Type → Type
  | semicolons : ExprRule Unit
  | typeExpr : ExprRule TypeExpr
  | typeParams : ExprRule (List TypeParam)
  | paramEntries : ExprRule (List (String × Option TypeExpr))
  | resultTypes : ExprRule (List TypeExpr)
  | names : ExprRule (List String)
  | expr : ExprRule Expr
  | binary (least : Nat) : ExprRule Expr
  | operators (least : Nat) (left : Expr) : ExprRule Expr
  | unary : ExprRule Expr
  | suffixes (base : Expr) : ExprRule Expr
  | arguments : ExprRule (List Expr)
  | elements : ExprRule (List Element)
  | exprs : ExprRule (List Expr)

-- What a procedure does, given those that it may call. It is reducible, so that the fixpoint below
-- sees where it calls them.
namespace OpenExpr

variable (read : {α : Type} → ExprRule α → Reading α)

abbrev skipSemicolons : Reading Unit := do
  if ← eat .semicolon then read .semicolons
  else return ()

abbrev typeExpr : Reading TypeExpr := do
  if ← eat .star then return .pointer (← read .typeExpr)
  else if ← eat .tilde then return .approx (← read .typeExpr)
  else if ← eat .lbracket then
    symbol .rbracket
    return .slice (← read .typeExpr)
  else if ← eatWord .mapWord then
    symbol .lbracket
    let key ← read .typeExpr
    symbol .rbracket
    return .map key (← read .typeExpr)
  else typeName

abbrev binary (least : Nat) : Reading Expr := do
  let left ← read .unary
  read (.operators least left)

abbrev operators (least : Nat) (left : Expr) : Reading Expr := do
  match ← peek with
  | .symbol mark =>
    match mark.binary? with
    | some op =>
      if least ≤ op.precedence then
        let span ← here
        advance
        let right ← read (.binary (op.precedence + 1))
        read (.operators least (.binary span op left right))
      else return left
    | none => return left
  | _ => return left

abbrev suffixes (base : Expr) : Reading Expr := do
  let span ← here
  if ← eat .dot then
    let member ← identifier
    read (.suffixes (.select span base member))
  else if ← eat .lparen then
    let args ← withComposites true (read .arguments)
    read (.suffixes (.call span base [] args))
  else if ← eat .lbracket then
    let index ← withComposites true (read .expr)
    symbol .rbracket
    read (.suffixes (.index span base index))
  else return base

abbrev arguments : Reading (List Expr) := do
  if ← eat .rparen then return []
  else
    let arg ← read .expr
    if ← atSymbol .rparen then return arg :: (← read .arguments)
    else
      symbol .comma
      return arg :: (← read .arguments)

abbrev elementAfter (first : Expr) : Reading Element := do
  if ← eat .colon then return .keyed first (← read .expr)
  else return .positional first

abbrev elements : Reading (List Element) := do
  read .semicolons
  if ← eat .rbrace then return []
  else
    let first ← read .expr
    let element ← elementAfter read first
    if ← eat .comma then return element :: (← read .elements)
    else
      read .semicolons
      symbol .rbrace
      return [element]

abbrev composite (span : Span) (type : TypeExpr) : Reading Expr := do
  symbol .lbrace
  return .composite span type (← withComposites true (read .elements))

abbrev operand : Reading Expr := do
  let span ← here
  match ← peek with
  | .int value => do
    advance
    return .literal span (.int value)
  | .float value => do
    advance
    return .literal span (.float value)
  | .string text => do
    advance
    return .literal span (.string text)
  | .ident text => do
    advance
    if !(← forbidsComposites) && Parser.isTypeName text && (← atSymbol .lbrace) then
      composite read span (.named text)
    else return Parser.name span text
  | .symbol .lparen => do
    advance
    let inner ← withComposites true (read .expr)
    symbol .rparen
    return .paren span inner
  | _ =>
    if (← atSymbol .lbracket) || (← atKeyword .mapWord) then
      let type ← read .typeExpr
      if ← atSymbol .lbrace then composite read span type
      else return .typeOperand span type
    else unexpected .expression

abbrev suffixed : Reading Expr := do
  let base ← operand read
  read (.suffixes base)

abbrev unary : Reading Expr := do
  match ← peek with
  | .symbol mark =>
    match mark.unary? with
    | some op => do
      let span ← here
      advance
      return .unary span op (← read .unary)
    | none => suffixed read
  | _ => suffixed read

abbrev exprs : Reading (List Expr) := do
  let first ← read .expr
  if ← eat .comma then return first :: (← read .exprs)
  else return [first]

abbrev names : Reading (List String) := do
  let first ← identifier
  if ← eat .comma then return first :: (← read .names)
  else return [first]

abbrev typeParams : Reading (List TypeParam) := do
  if ← eat .rbracket then return []
  else
    let name ← identifier
    let bound ← read .typeExpr
    skipComma
    return ⟨name, bound⟩ :: (← read .typeParams)

abbrev paramType : Reading (Option TypeExpr) := do
  if (← atSymbol .comma) || (← atSymbol .rparen) then return none
  else return some (← read .typeExpr)

abbrev paramEntries : Reading (List (String × Option TypeExpr)) := do
  if ← eat .rparen then return []
  else
    let name ← identifier
    let type ← paramType read
    skipComma
    return (name, type) :: (← read .paramEntries)

abbrev resultTypes : Reading (List TypeExpr) := do
  if ← eat .rparen then return []
  else
    let type ← read .typeExpr
    skipComma
    return type :: (← read .resultTypes)

end OpenExpr

-- Every procedure may call every other one; one that never ends has no outcome. The fixpoint is named by
-- `apply` where it refers to itself: of any other reference it keeps the place in the file, as a part of
-- the definition.
def read {α : Type} (r : ExprRule α) : Reading α :=
  (match r with
  | .semicolons => OpenExpr.skipSemicolons
  | .typeExpr => OpenExpr.typeExpr
  | .typeParams => OpenExpr.typeParams
  | .paramEntries => OpenExpr.paramEntries
  | .resultTypes => OpenExpr.resultTypes
  | .names => OpenExpr.names
  | .expr => fun read => read (.binary 1)
  | .binary least => (OpenExpr.binary · least)
  | .operators least left => (OpenExpr.operators · least left)
  | .unary => OpenExpr.unary
  | .suffixes base => (OpenExpr.suffixes · base)
  | .arguments => OpenExpr.arguments
  | .elements => OpenExpr.elements
  | .exprs => OpenExpr.exprs : ({α : Type} → ExprRule α → Reading α) → Reading α) (by apply read)
partial_fixpoint

def skipSemicolons : Reading Unit :=
  read .semicolons

def typeExpr : Reading TypeExpr :=
  read .typeExpr

def expr : Reading Expr :=
  read .expr

def exprs : Reading (List Expr) :=
  read .exprs

def simpleAfter (span : Span) (targets : List Expr) : Reading Stmt := do
  match ← peek with
  | .symbol .increment => step true
  | .symbol .decrement => step false
  | .symbol mark =>
    match mark.assignment? with
    | some op => do
      advance
      return .assign span targets op (← exprs)
    | none => alone
  | _ => alone
where
  step (increment : Bool) : Reading Stmt := do
    advance
    match targets with
    | [target] => return .step span target increment
    | _ => throw ⟨span, .stepOperands⟩
  alone : Reading Stmt :=
    match targets with
    | [value] => return .expr value
    | _ => throw ⟨span, .noAssignment⟩

def simple : Reading Stmt := do
  let span ← here
  let targets ← exprs
  simpleAfter span targets

def simpleUnless (mark : Symbol) : Reading (Option Stmt) := do
  if ← atSymbol mark then return none
  else return some (← simple)

def exprUnless (mark : Symbol) : Reading (Option Expr) := do
  if ← atSymbol mark then return none
  else return some (← expr)

def header : Reading (Option Stmt × Option Expr) := do
  if ← atSymbol .lbrace then return (none, none)
  else
    let first ← simpleUnless .semicolon
    if ← eat .semicolon then return (first, ← exprUnless .lbrace)
    else
      match first with
      | some (.expr value) => return (none, some value)
      | _ => unexpected .condition

-- Whether a `range` clause with bindings comes next, and if so whether they are new.
def rangeClause? : Reading (Option Bool) := do
  match ← peek, ← peekAt 1 with
  | .symbol .define, .keyword .rangeWord => do
    advance
    advance
    return some true
  | .symbol .assign, .keyword .rangeWord => do
    advance
    advance
    return some false
  | _, _ => return none

def loopClauses (init : Option Stmt) : Reading Parser.LoopHeader := do
  let cond ← exprUnless .semicolon
  symbol .semicolon
  return .clauses init cond (← simpleUnless .lbrace)

def loopFirst : Reading (List Expr) := do
  if ← atSymbol .semicolon then return []
  else exprs

def clauseInit (span : Span) (first : List Expr) : Reading (Option Stmt) := do
  if first.isEmpty then return none
  else return some (← simpleAfter span first)

def loopHeader : Reading Parser.LoopHeader := do
  if ← atSymbol .lbrace then return .clauses none none none
  else if ← eatWord .rangeWord then return .range none none false (← expr)
  else
    let span ← here
    let first ← loopFirst
    match ← rangeClause? with
    | some define => return .range first[0]? first[1]? define (← expr)
    | none =>
      let init ← clauseInit span first
      if ← eat .semicolon then loopClauses init
      else
        match init with
        | some (.expr cond) => return .clauses none (some cond) none
        | _ => unexpected (.symbol .semicolon)

def typeOption : Reading (Option TypeExpr) := do
  if (← atSymbol .assign) || (← atSymbol .semicolon) then return none
  else return some (← typeExpr)

def varDecl : Reading Stmt := do
  let span ← here
  keyword .varWord
  let names ← read .names
  let type ← typeOption
  if ← eat .assign then return .var span names type (← exprs)
  else return .var span names type []

def results : Reading (List Expr) := do
  if (← atSymbol .semicolon) || (← atSymbol .rbrace) then return []
  else exprs

-- The values of a case up to its colon; the default has none.
def caseValues : Reading (List Expr) := do
  if ← eatWord .defaultWord then
    symbol .colon
    return []
  else
    keyword .caseWord
    let values ← exprs
    symbol .colon
    return values

def endsList : Reading Bool := do
  return (← atSymbol .rbrace) || (← atKeyword .caseWord) || (← atKeyword .defaultWord)

def receiver : Reading (Option Param) := do
  if ← eat .lparen then
    let name ← identifier
    let type ← typeExpr
    symbol .rparen
    return some ⟨name, type⟩
  else return none

def typeParamsOption : Reading (List TypeParam) := do
  if ← eat .lbracket then read .typeParams
  else return []

def params : Reading (List Param) := do
  let entries ← read .paramEntries
  match Parser.typedParams entries with
  | .ok params => return params
  | .error fault => throw ⟨← here, fault⟩

def resultsOption : Reading (List TypeExpr) := do
  if ← atSymbol .lbrace then return []
  else if ← eat .lparen then read .resultTypes
  else return [← typeExpr]

-- The procedures for statements and functions that call themselves or one another.
inductive StmtRule : Type → Type
  | block : StmtRule Block
  | statements : StmtRule (List Stmt)
  | statement : StmtRule Stmt
  | ifElse : StmtRule Stmt
  | cases : StmtRule (List Case)
  | file : StmtRule (List FuncDecl)

namespace OpenStmt

variable (read : {α : Type} → StmtRule α → Reading α)

abbrev block : Reading Block := do
  let span ← here
  symbol .lbrace
  let body ← withComposites true (read .statements)
  symbol .rbrace
  return .mk span body

abbrev statements : Reading (List Stmt) := do
  skipSemicolons
  if ← endsList then return []
  else if ← atEnd then unexpected (.symbol .rbrace)
  else
    let first ← read .statement
    if ← atSymbol .rbrace then return first :: (← read .statements)
    else if ← eat .semicolon then return first :: (← read .statements)
    else unexpected .separator

abbrev statement : Reading Stmt := do
  let span ← here
  match ← peek with
  | .keyword .varWord => varDecl
  | .keyword .ifWord => read .ifElse
  | .keyword .forWord => do
    advance
    let header ← withComposites false loopHeader
    return header.loop span (← read .block)
  | .keyword .switchWord => do
    advance
    let (init, tag) ← withComposites false header
    symbol .lbrace
    return .switch span init tag (← read .cases)
  | .keyword .returnWord => do
    advance
    return .ret span (← results)
  | .keyword .breakWord => do
    advance
    return .breakLoop span
  | .keyword .continueWord => do
    advance
    return .continueLoop span
  | .symbol .lbrace => return .block (← read .block)
  | _ => simple

abbrev elseBranch : Reading (Option Stmt) := do
  if ← eatWord .elseWord then
    if ← atKeyword .ifWord then return some (← read .ifElse)
    else return some (.block (← read .block))
  else return none

abbrev ifElse : Reading Stmt := do
  let span ← here
  keyword .ifWord
  let (init, cond) ← withComposites false header
  match cond with
  | none => throw ⟨span, .noCondition⟩
  | some cond =>
    let body ← read .block
    return .ifElse span init cond body (← elseBranch read)

abbrev cases : Reading (List Case) := do
  skipSemicolons
  if ← eat .rbrace then return []
  else
    let span ← here
    let values ← caseValues
    let body ← withComposites true (read .statements)
    return .mk span values body :: (← read .cases)

abbrev function : Reading FuncDecl := do
  let span ← here
  keyword .funcWord
  let receiver ← receiver
  let name ← identifier
  let typeParams ← typeParamsOption
  symbol .lparen
  let params ← params
  let results ← resultsOption
  let body ← read .block
  return { doc := none, receiver, name, typeParams, params, results, body, span }

abbrev file : Reading (List FuncDecl) := do
  skipSemicolons
  if ← atEnd then return []
  else return (← function read) :: (← read .file)

end OpenStmt

def readStmts {α : Type} (r : StmtRule α) : Reading α :=
  (match r with
  | .block => OpenStmt.block
  | .statements => OpenStmt.statements
  | .statement => OpenStmt.statement
  | .ifElse => OpenStmt.ifElse
  | .cases => OpenStmt.cases
  | .file => OpenStmt.file : ({α : Type} → StmtRule α → Reading α) → Reading α) (by apply readStmts)
partial_fixpoint

def block : Reading Block :=
  readStmts .block

def statement : Reading Stmt :=
  readStmts .statement

def function : Reading FuncDecl :=
  OpenStmt.function readStmts

def file : Reading (List FuncDecl) :=
  readStmts .file

end Reading

end FieldAccess
