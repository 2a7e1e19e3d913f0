import FieldAccess.Source.Parser.Basic
import FieldAccess.Syntax.Expr

namespace FieldAccess.Parser

variable (stop : Span)

def name (span : Span) (text : String) : Expr :=
  if text = "true" then .literal span (.bool true)
  else if text = "false" then .literal span (.bool false)
  else if text = "nil" then .literal span .nil
  else .ident span text

def isTypeName (text : String) : Bool :=
  !(text = "true" || text = "false" || text = "nil")

mutual

-- In the header of a statement a brace opens the body, so there a name followed by a brace is no
-- composite literal: this is what `composites` says.
def expr (composites : Bool) (ts : List Token) : Outcome Expr ts.length :=
  binary composites 1 ts
termination_by 8 * ts.length + 4

-- Operators that bind at least as strongly as `least`; those of equal strength group to the left.
def binary (composites : Bool) (least : Nat) (ts : List Token) : Outcome Expr ts.length := do
  let ⟨left, rest, h⟩ ← unary composites ts
  let whole ← operators composites least left rest
  return whole.within h
termination_by 8 * ts.length + 3

def operators (composites : Bool) (least : Nat) (left : Expr) (ts : List Token) :
    Outcome Expr (ts.length + 1) :=
  match ts with
  | ⟨.symbol mark, span⟩ :: rest =>
    match mark.binary? with
    | some op =>
      if least ≤ op.precedence then do
        let ⟨right, rest, h⟩ ← binary composites (op.precedence + 1) rest
        let whole ← operators composites least (.binary span op left right) rest
        return (whole.within h).past.relax
      else .ok (.unread left (⟨.symbol mark, span⟩ :: rest))
    | none => .ok (.unread left (⟨.symbol mark, span⟩ :: rest))
  | ts => .ok (.unread left ts)
termination_by 8 * ts.length

def unary (composites : Bool) (ts : List Token) : Outcome Expr ts.length :=
  match ts with
  | ⟨.symbol mark, span⟩ :: rest =>
    match mark.unary? with
    | some op => do
      let operand ← unary composites rest
      return (operand.map (.unary span op)).past
    | none => suffixed composites (⟨.symbol mark, span⟩ :: rest)
  | ts => suffixed composites ts
termination_by 8 * ts.length + 2

def suffixed (composites : Bool) (ts : List Token) : Outcome Expr ts.length := do
  let ⟨base, rest, h⟩ ← operand composites ts
  let whole ← suffixes base rest
  return whole.within h
termination_by 8 * ts.length + 1

def suffixes (base : Expr) (ts : List Token) : Outcome Expr (ts.length + 1) :=
  match ts with
  | ⟨.symbol .dot, span⟩ :: rest => do
    let ⟨member, rest, h⟩ ← identifier stop rest
    let whole ← suffixes (.select span base member) rest
    return (whole.within h).past.relax
  | ⟨.symbol .lparen, span⟩ :: rest => do
    let ⟨args, rest, h⟩ ← arguments rest
    let whole ← suffixes (.call span base [] args) rest
    return (whole.within h).past.relax
  | ⟨.symbol .lbracket, span⟩ :: rest => do
    let ⟨index, rest, h₁⟩ ← expr true rest
    let ⟨_, rest, h₂⟩ ← symbol stop .rbracket rest
    let whole ← suffixes (.index span base index) rest
    return ((whole.within h₂).below h₁).past.relax
  | ts => .ok (.unread base ts)
termination_by 8 * ts.length

def arguments (ts : List Token) : Outcome (List Expr) ts.length :=
  match eat .rparen ts with
  | some ⟨rest, h⟩ => .ok ⟨[], rest, h⟩
  | none => do
    let ⟨arg, rest, h₁⟩ ← expr true ts
    match eat .rparen rest with
    | some ⟨rest, h₂⟩ => return .below ⟨[arg], rest, h₂⟩ h₁
    | none =>
      let ⟨_, rest, h₂⟩ ← symbol stop .comma rest
      let args ← arguments rest
      return args.map (arg :: ·) |>.below h₂ |>.below h₁
termination_by 8 * ts.length + 5

def operand (composites : Bool) (ts : List Token) : Outcome Expr ts.length :=
  match ts with
  | ⟨.int value, span⟩ :: rest => .ok (.ofOne (.literal span (.int value)) rest)
  | ⟨.float value, span⟩ :: rest => .ok (.ofOne (.literal span (.float value)) rest)
  | ⟨.string text, span⟩ :: rest => .ok (.ofOne (.literal span (.string text)) rest)
  | ⟨.ident text, span⟩ :: rest =>
    if composites && isTypeName text && atSymbol .lbrace rest then do
      let whole ← composite span (.named text) rest
      return whole.past
    else .ok (.ofOne (name span text) rest)
  | ⟨.symbol .lparen, span⟩ :: rest => do
    let ⟨inner, rest, h₁⟩ ← expr true rest
    let ⟨_, rest, h₂⟩ ← symbol stop .rparen rest
    return .past (.below ⟨.paren span inner, rest, h₂⟩ h₁)
  | ts =>
    if atSymbol .lbracket ts || atKeyword .mapWord ts then do
      let ⟨type, rest, h⟩ ← typeExpr stop ts
      if atSymbol .lbrace rest then do
        let whole ← composite (here stop ts) type rest
        return whole.below h
      else return ⟨.typeOperand (here stop ts) type, rest, h⟩
    else .error (unexpected stop .expression ts)
termination_by 8 * ts.length

def composite (span : Span) (type : TypeExpr) (ts : List Token) : Outcome Expr ts.length := do
  let ⟨_, rest, h⟩ ← symbol stop .lbrace ts
  let elements ← elements rest
  return (elements.map (.composite span type)).below h
termination_by 8 * ts.length

def elements (ts : List Token) : Outcome (List Element) ts.length :=
  let ⟨start, h₀⟩ := skipSemicolons ts
  match eat .rbrace start with
  | some ⟨rest, h⟩ => .ok (.widen ⟨[], rest, h⟩ h₀)
  | none => do
    let ⟨first, rest, h₁⟩ ← expr true start
    let ⟨element, rest, h₂⟩ ← elementAfter first rest
    match eat .comma rest with
    | some ⟨rest, h₃⟩ =>
      let more ← elements rest
      return more.map (element :: ·) |>.below h₃ |>.afterOption h₂ |>.below h₁ |>.widen h₀
    | none =>
      let ⟨rest, h₃⟩ := skipSemicolons rest
      let ⟨_, rest, h₄⟩ ← symbol stop .rbrace rest
      return Parsed.mk [element] rest h₄ |>.widen h₃ |>.afterOption h₂ |>.below h₁ |>.widen h₀
termination_by 8 * ts.length + 5

def elementAfter (first : Expr) (ts : List Token) : Outcome Element (ts.length + 1) :=
  match eat .colon ts with
  | some ⟨rest, h⟩ => do
    let value ← expr true rest
    return ((value.map (.keyed first)).below h).relax
  | none => .ok (.unread (.positional first) ts)
termination_by 8 * ts.length

end

def exprs (composites : Bool) (ts : List Token) : Outcome (List Expr) ts.length := do
  let ⟨first, rest, h₁⟩ ← expr stop composites ts
  match eat .comma rest with
  | some ⟨rest, h₂⟩ =>
    let more ← exprs composites rest
    return more.map (first :: ·) |>.below h₂ |>.below h₁
  | none => return ⟨[first], rest, h₁⟩
termination_by ts.length

end FieldAccess.Parser
