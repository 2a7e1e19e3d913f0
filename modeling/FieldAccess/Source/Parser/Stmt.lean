import FieldAccess.Source.Parser.Expr
import FieldAccess.Syntax.Stmt

namespace FieldAccess.Parser

variable (stop : Span)

def simpleAfter (composites : Bool) (span : Span) (targets : List Expr) (ts : List Token) :
    Outcome Stmt (ts.length + 1) :=
  match ts with
  | ⟨.symbol .increment, _⟩ :: rest => step true rest
  | ⟨.symbol .decrement, _⟩ :: rest => step false rest
  | ⟨.symbol mark, s⟩ :: rest =>
    match mark.assignment? with
    | some op => do
      let values ← exprs stop composites rest
      return (values.map (.assign span targets op)).past.relax
    | none => alone (⟨.symbol mark, s⟩ :: rest)
  | ts => alone ts
where
  step (increment : Bool) (rest : List Token) {t : Token} : Outcome Stmt ((t :: rest).length + 1) :=
    match targets with
    | [target] => .ok (.relax (.ofOne (.step span target increment) rest))
    | _ => .error ⟨span, .stepOperands⟩
  alone (ts : List Token) : Outcome Stmt (ts.length + 1) :=
    match targets with
    | [value] => .ok (.unread (.expr value) ts)
    | _ => .error ⟨span, .noAssignment⟩

def simple (composites : Bool) (ts : List Token) : Outcome Stmt ts.length := do
  let ⟨targets, rest, h⟩ ← exprs stop composites ts
  let statement ← simpleAfter stop composites (here stop ts) targets rest
  return statement.within h

def simpleUnless (mark : Symbol) (ts : List Token) : Outcome (Option Stmt) (ts.length + 1) :=
  if atSymbol mark ts then .ok (.unread none ts)
  else do
    let statement ← simple stop false ts
    return (statement.map some).relax

def exprUnless (mark : Symbol) (ts : List Token) : Outcome (Option Expr) (ts.length + 1) :=
  if atSymbol mark ts then .ok (.unread none ts)
  else do
    let value ← expr stop false ts
    return (value.map some).relax

def header (ts : List Token) : Outcome (Option Stmt × Option Expr) (ts.length + 1) :=
  if atSymbol .lbrace ts then .ok (.unread (none, none) ts)
  else do
    let ⟨first, rest, h₁⟩ ← simpleUnless stop .semicolon ts
    match eat .semicolon rest with
    | some ⟨rest, h₂⟩ =>
      let value ← exprUnless stop .lbrace rest
      return value.map (first, ·) |>.within h₂ |>.below h₁
    | none =>
      match first with
      | some (.expr value) => return ⟨(none, some value), rest, h₁⟩
      | _ => throw (unexpected stop .condition rest)

inductive LoopHeader where
  | range (key : Option Expr) (value : Option Expr) (define : Bool) (iterable : Expr)
  | clauses (init : Option Stmt) (cond : Option Expr) (post : Option Stmt)

def LoopHeader.loop (span : Span) (body : Block) : LoopHeader → Stmt
  | range key value define iterable => .range span key value define iterable body
  | clauses init cond post => .forLoop span init cond post body

def rangeClause? (ts : List Token) : Option (Parsed Bool ts.length) :=
  match ts with
  | ⟨.symbol .define, _⟩ :: ⟨.keyword .rangeWord, _⟩ :: rest => some (.past (.ofOne true rest))
  | ⟨.symbol .assign, _⟩ :: ⟨.keyword .rangeWord, _⟩ :: rest => some (.past (.ofOne false rest))
  | _ => none

def loopClauses (init : Option Stmt) (ts : List Token) : Outcome LoopHeader ts.length := do
  let ⟨cond, rest, h₁⟩ ← exprUnless stop .semicolon ts
  let ⟨_, rest, h₂⟩ ← symbol stop .semicolon rest
  let post ← simpleUnless stop .lbrace rest
  return post.map (.clauses init cond) |>.within h₂ |>.afterOption h₁

def loopFirst (ts : List Token) : Outcome (List Expr) (ts.length + 1) :=
  if atSymbol .semicolon ts then .ok (.unread [] ts)
  else do
    let first ← exprs stop false ts
    return first.relax

def loopHeader (ts : List Token) : Outcome LoopHeader (ts.length + 1) :=
  if atSymbol .lbrace ts then .ok (.unread (.clauses none none none) ts)
  else match eatWord .rangeWord ts with
  | some ⟨rest, h⟩ => do
    let iterable ← expr stop false rest
    return ((iterable.map (.range none none false)).below h).relax
  | none => do
    let ⟨first, rest, h₁⟩ ← loopFirst stop ts
    match rangeClause? rest with
    | some ⟨define, rest, h₂⟩ =>
      let iterable ← expr stop false rest
      return iterable.map (.range first[0]? first[1]? define) |>.below h₂ |>.below h₁
    | none =>
      let ⟨init, rest, h₂⟩ ← clauseInit first rest
      match eat .semicolon rest with
      | some ⟨rest, h₃⟩ =>
        let clauses ← loopClauses stop init rest
        return clauses.below h₃ |>.afterOption h₂ |>.below h₁
      | none =>
        match init with
        | some (.expr cond) => return .within ⟨.clauses none (some cond) none, rest, h₂⟩ h₁
        | _ => throw (unexpected stop (.symbol .semicolon) rest)
where
  clauseInit (first : List Expr) (rest : List Token) : Outcome (Option Stmt) (rest.length + 1) :=
    if first.isEmpty then .ok (.unread none rest)
    else do
      let statement ← simpleAfter stop false (here stop ts) first rest
      return statement.map some

def names (ts : List Token) : Outcome (List String) ts.length := do
  let ⟨first, rest, h₁⟩ ← identifier stop ts
  match eat .comma rest with
  | some ⟨rest, h₂⟩ =>
    let more ← names rest
    return more.map (first :: ·) |>.below h₂ |>.below h₁
  | none => return ⟨[first], rest, h₁⟩
termination_by ts.length

def varDecl (composites : Bool) (span : Span) (ts : List Token) : Outcome Stmt ts.length := do
  let ⟨names, rest, h₁⟩ ← names stop ts
  let ⟨type, rest, h₂⟩ ← typeOption rest
  match eat .assign rest with
  | some ⟨rest, h₃⟩ =>
    let values ← exprs stop composites rest
    return values.map (.var span names type) |>.below h₃ |>.afterOption h₂ |>.below h₁
  | none => return .within ⟨.var span names type [], rest, h₂⟩ h₁
where
  typeOption (ts : List Token) : Outcome (Option TypeExpr) (ts.length + 1) :=
    if atSymbol .assign ts || atSymbol .semicolon ts then .ok (.unread none ts)
    else do
      let type ← typeExpr stop ts
      return (type.map some).relax

def results (composites : Bool) (ts : List Token) : Outcome (List Expr) (ts.length + 1) :=
  if atSymbol .semicolon ts || atSymbol .rbrace ts then .ok (.unread [] ts)
  else do
    let values ← exprs stop composites ts
    return values.relax

def caseValues (composites : Bool) (ts : List Token) : Outcome (List Expr) ts.length :=
  match eatWord .defaultWord ts with
  | some ⟨rest, h₁⟩ => do
    let ⟨_, rest, h₂⟩ ← symbol stop .colon rest
    return .below ⟨[], rest, h₂⟩ h₁
  | none => do
    let ⟨_, rest, h₁⟩ ← keyword stop .caseWord ts
    let ⟨values, rest, h₂⟩ ← exprs stop composites rest
    let ⟨_, rest, h₃⟩ ← symbol stop .colon rest
    return Parsed.mk values rest h₃ |>.below h₂ |>.below h₁

def endsList (ts : List Token) : Bool :=
  atSymbol .rbrace ts || atKeyword .caseWord ts || atKeyword .defaultWord ts

mutual

def block (ts : List Token) : Outcome Block ts.length := do
  let ⟨_, rest, h₁⟩ ← symbol stop .lbrace ts
  let ⟨body, rest, h₂⟩ ← statements rest
  let ⟨_, rest, h₃⟩ ← symbol stop .rbrace rest
  return Parsed.mk (Block.mk (here stop ts) body) rest h₃ |>.afterOption h₂ |>.below h₁
termination_by 8 * ts.length

-- Statements up to a closing brace or the next case. Each but the last ends with a semicolon.
def statements (ts : List Token) : Outcome (List Stmt) (ts.length + 1) :=
  let ⟨start, h₀⟩ := skipSemicolons ts
  if endsList start then .ok (.upTo (.unread [] start) h₀)
  else if atEnd start then .error (unexpected stop (.symbol .rbrace) start)
  else do
    let ⟨first, rest, h₁⟩ ← statement true start
    match eat .semicolon rest with
    | some ⟨rest, h₂⟩ =>
      let more ← statements rest
      return (more.map (first :: ·) |>.within h₂ |>.below h₁ |>.widen h₀).relax
    | none =>
      if atSymbol .rbrace rest then return (Parsed.mk [first] rest h₁ |>.widen h₀).relax
      else throw (unexpected stop .separator rest)
termination_by 8 * ts.length + 2

def statement (composites : Bool) (ts : List Token) : Outcome Stmt ts.length :=
  match ts with
  | ⟨.keyword .varWord, span⟩ :: rest => do
    let declared ← varDecl stop composites span rest
    return declared.past
  | ⟨.keyword .ifWord, span⟩ :: rest => do
    let branch ← ifElse span rest
    return branch.past
  | ⟨.keyword .forWord, span⟩ :: rest => do
    let ⟨header, rest, h⟩ ← loopHeader stop rest
    let body ← block rest
    return (body.map (header.loop span) |>.afterOption h).past
  | ⟨.keyword .switchWord, span⟩ :: rest => do
    let ⟨(init, tag), rest, h₁⟩ ← header stop rest
    let ⟨_, rest, h₂⟩ ← symbol stop .lbrace rest
    let cases ← cases composites rest
    return (cases.map (.switch span init tag) |>.below h₂ |>.afterOption h₁).past
  | ⟨.keyword .returnWord, span⟩ :: rest => do
    let values ← results stop composites rest
    return (values.map (.ret span)).pastOption
  | ⟨.keyword .breakWord, span⟩ :: rest => .ok (.ofOne (.breakLoop span) rest)
  | ⟨.keyword .continueWord, span⟩ :: rest => .ok (.ofOne (.continueLoop span) rest)
  | ts =>
    if atSymbol .lbrace ts then do
      let body ← block ts
      return body.map .block
    else simple stop composites ts
termination_by 8 * ts.length + 1

def ifElse (span : Span) (ts : List Token) : Outcome Stmt ts.length := do
  let ⟨(init, cond), rest, h₁⟩ ← header stop ts
  match cond with
  | none => throw ⟨span, .noCondition⟩
  | some cond =>
    let ⟨body, rest, h₂⟩ ← block rest
    let orElse ← elseBranch rest
    return orElse.map (.ifElse span init cond body) |>.within h₂ |>.afterOption h₁
termination_by 8 * ts.length + 1

def elseBranch (ts : List Token) : Outcome (Option Stmt) (ts.length + 1) :=
  match eatWord .elseWord ts with
  | none => .ok (.unread none ts)
  | some ⟨rest, h₁⟩ =>
    match eatWord .ifWord rest with
    | some ⟨after, h₂⟩ => do
      let branch ← ifElse (here stop rest) after
      return (branch.map some |>.below h₂ |>.below h₁).relax
    | none => do
      let body ← block rest
      return (body.map (some ∘ .block) |>.below h₁).relax
termination_by 8 * ts.length

def cases (composites : Bool) (ts : List Token) : Outcome (List Case) ts.length :=
  let ⟨start, h₀⟩ := skipSemicolons ts
  match eat .rbrace start with
  | some ⟨rest, h⟩ => .ok (.widen ⟨[], rest, h⟩ h₀)
  | none => do
    let ⟨values, rest, h₁⟩ ← caseValues stop composites start
    let ⟨body, rest, h₂⟩ ← statements rest
    let more ← cases composites rest
    return more.map (.mk (here stop start) values body :: ·) |>.afterOption h₂ |>.below h₁
      |>.widen h₀
termination_by 8 * ts.length

end

end FieldAccess.Parser
