import FieldAccess.Source.Lexer
import FieldAccess.Source.Parser.Stmt
import FieldAccess.Syntax.Decl

namespace FieldAccess.Parser

variable (stop : Span)

def receiver (ts : List Token) : Outcome (Option Param) (ts.length + 1) :=
  match eat .lparen ts with
  | none => .ok (.unread none ts)
  | some ⟨rest, h₁⟩ => do
    let ⟨name, rest, h₂⟩ ← identifier stop rest
    let ⟨type, rest, h₃⟩ ← typeExpr stop rest
    let ⟨_, rest, h₄⟩ ← symbol stop .rparen rest
    let whole := Parsed.mk (some ⟨name, type⟩) rest h₄ |>.below h₃ |>.below h₂ |>.below h₁
    return whole.relax

def typeParams (ts : List Token) : Outcome (List TypeParam) ts.length :=
  match eat .rbracket ts with
  | some ⟨rest, h⟩ => .ok ⟨[], rest, h⟩
  | none => do
    let ⟨name, rest, h₁⟩ ← identifier stop ts
    let ⟨bound, rest, h₂⟩ ← typeExpr stop rest
    let ⟨rest, h₃⟩ := skipComma rest
    let more ← typeParams rest
    return more.map (⟨name, bound⟩ :: ·) |>.widen h₃ |>.below h₂ |>.below h₁
termination_by ts.length

def typeParamsOption (ts : List Token) : Outcome (List TypeParam) (ts.length + 1) :=
  match eat .lbracket ts with
  | none => .ok (.unread [] ts)
  | some ⟨rest, h⟩ => do
    let params ← typeParams stop rest
    return (params.below h).relax

def paramType (ts : List Token) : Outcome (Option TypeExpr) (ts.length + 1) :=
  if atSymbol .comma ts || atSymbol .rparen ts then .ok (.unread none ts)
  else do
    let type ← typeExpr stop ts
    return (type.map some).relax

def paramEntries (ts : List Token) : Outcome (List (String × Option TypeExpr)) ts.length :=
  match eat .rparen ts with
  | some ⟨rest, h⟩ => .ok ⟨[], rest, h⟩
  | none => do
    let ⟨name, rest, h₁⟩ ← identifier stop ts
    let ⟨type, rest, h₂⟩ ← paramType stop rest
    let ⟨rest, h₃⟩ := skipComma rest
    let more ← paramEntries rest
    return more.map ((name, type) :: ·) |>.widen h₃ |>.afterOption h₂ |>.below h₁
termination_by ts.length

-- Gives each parameter without a type that of the next one. The last such parameter that no type
-- follows is the one reported.
def typedParams : List (String × Option TypeExpr) → Except SyntaxFault (List Param)
  | [] => .ok []
  | (name, type) :: rest => do
    let params ← typedParams rest
    match type.or (params.head?.map Param.type) with
    | some type => return ⟨name, type⟩ :: params
    | none => throw (.untypedParam name)

def params (ts : List Token) : Outcome (List Param) ts.length := do
  let entries ← paramEntries stop ts
  match typedParams entries.value with
  | .ok params => return entries.map fun _ => params
  | .error fault => throw ⟨here stop entries.rest, fault⟩

def resultTypes (ts : List Token) : Outcome (List TypeExpr) ts.length :=
  match eat .rparen ts with
  | some ⟨rest, h⟩ => .ok ⟨[], rest, h⟩
  | none => do
    let ⟨type, rest, h₁⟩ ← typeExpr stop ts
    let ⟨rest, h₂⟩ := skipComma rest
    let more ← resultTypes rest
    return more.map (type :: ·) |>.widen h₂ |>.below h₁
termination_by ts.length

-- No result before the body, several in parentheses, one without.
def resultsOption (ts : List Token) : Outcome (List TypeExpr) (ts.length + 1) :=
  if atSymbol .lbrace ts then .ok (.unread [] ts)
  else match eat .lparen ts with
  | some ⟨rest, h⟩ => do
    let types ← resultTypes stop rest
    return (types.below h).relax
  | none => do
    let type ← typeExpr stop ts
    return (type.map ([·])).relax

def function (ts : List Token) : Outcome FuncDecl ts.length := do
  let ⟨_, rest, h₁⟩ ← keyword stop .funcWord ts
  let ⟨receiver, rest, h₂⟩ ← receiver stop rest
  let ⟨name, rest, h₃⟩ ← identifier stop rest
  let ⟨typeParams, rest, h₄⟩ ← typeParamsOption stop rest
  let ⟨_, rest, h₅⟩ ← symbol stop .lparen rest
  let ⟨params, rest, h₆⟩ ← params stop rest
  let ⟨results, rest, h₇⟩ ← resultsOption stop rest
  let ⟨body, rest, h₈⟩ ← block stop rest
  let f : FuncDecl :=
    { doc := none, receiver, name, typeParams, params, results, body, span := here stop ts }
  return Parsed.mk f rest h₈ |>.afterOption h₇ |>.below h₆ |>.below h₅ |>.afterOption h₄ |>.below h₃
    |>.afterOption h₂ |>.below h₁

def functions (ts : List Token) : Except SyntaxError (List FuncDecl) :=
  let ⟨start, _⟩ := skipSemicolons ts
  if atEnd start then .ok []
  else do
    let ⟨first, rest, _⟩ ← function stop start
    let more ← functions rest
    return first :: more
termination_by ts.length

def file (ts : List Token) : Except SyntaxError (List FuncDecl) :=
  functions (stopOf ts) ts

end FieldAccess.Parser

namespace FieldAccess.FuncDecl

def parseAll (source : String) : Except SyntaxError (List FuncDecl) := do
  Parser.file (← Token.scan source)

def parse (source : String) : Except SyntaxError FuncDecl := do
  match ← parseAll source with
  | [function] => return function
  | functions => throw ⟨.nowhere, .declarationCount functions.length⟩

end FieldAccess.FuncDecl
