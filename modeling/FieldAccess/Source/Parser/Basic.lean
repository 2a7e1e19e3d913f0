import FieldAccess.Source.Token
import FieldAccess.Syntax.TypeExpr

namespace FieldAccess

-- A value and the tokens after it, fewer than `bound`: recursion on the tokens that are left ends.
structure Parsed (α : Type) (bound : Nat) where
  value : α
  rest : List Token
  shorter : rest.length < bound

namespace Parsed

variable {α β : Type}

def widen {n m : Nat} (p : Parsed α n) (h : n ≤ m) : Parsed α m :=
  ⟨p.value, p.rest, Nat.lt_of_lt_of_le p.shorter h⟩

-- What is read from the rest of an earlier step, as read from where that step began.
def below {n m : Nat} (p : Parsed α n) (h : n < m) : Parsed α m :=
  ⟨p.value, p.rest, Nat.lt_trans p.shorter h⟩

def within {n m : Nat} (p : Parsed α (n + 1)) (h : n < m) : Parsed α m :=
  ⟨p.value, p.rest, Nat.lt_of_lt_of_le p.shorter h⟩

def afterOption {n m : Nat} (p : Parsed α n) (h : n < m + 1) : Parsed α m :=
  ⟨p.value, p.rest, Nat.lt_of_lt_of_le p.shorter (Nat.le_of_lt_succ h)⟩

def upTo {n m : Nat} (p : Parsed α (n + 1)) (h : n ≤ m) : Parsed α (m + 1) :=
  ⟨p.value, p.rest, Nat.lt_of_lt_of_le p.shorter (Nat.succ_le_succ h)⟩

def relax {n : Nat} (p : Parsed α n) : Parsed α (n + 1) :=
  ⟨p.value, p.rest, Nat.lt_succ_of_lt p.shorter⟩

def past {t : Token} {ts : List Token} (p : Parsed α ts.length) : Parsed α (t :: ts).length :=
  p.relax

def pastOption {t : Token} {ts : List Token} (p : Parsed α (ts.length + 1)) :
    Parsed α (t :: ts).length :=
  p

def ofOne (value : α) {t : Token} (ts : List Token) : Parsed α (t :: ts).length :=
  ⟨value, ts, Nat.lt_succ_self _⟩

def map {n : Nat} (f : α → β) (p : Parsed α n) : Parsed β n :=
  ⟨f p.value, p.rest, p.shorter⟩

def unread (value : α) (ts : List Token) : Parsed α (ts.length + 1) :=
  ⟨value, ts, Nat.lt_succ_self _⟩

end Parsed

abbrev Outcome (α : Type) (n : Nat) : Type :=
  Except SyntaxError (Parsed α n)

namespace Token

def isSymbol (mark : Symbol) (t : Token) : Bool :=
  match t.kind with
  | .symbol m => m = mark
  | _ => false

def isKeyword (word : Keyword) (t : Token) : Bool :=
  match t.kind with
  | .keyword w => w = word
  | _ => false

def isEof (t : Token) : Bool :=
  match t.kind with
  | .eof => true
  | _ => false

end Token

namespace Parser

def peek : List Token → TokenKind
  | [] => .eof
  | t :: _ => t.kind

def here (stop : Span) : List Token → Span
  | [] => stop
  | t :: _ => t.span

def stopOf (ts : List Token) : Span :=
  (ts.getLast?.map Token.span).getD .nowhere

def atSymbol (mark : Symbol) (ts : List Token) : Bool :=
  ts.head?.any (·.isSymbol mark)

def atKeyword (word : Keyword) (ts : List Token) : Bool :=
  ts.head?.any (·.isKeyword word)

def atEnd (ts : List Token) : Bool :=
  ts.head?.all (·.isEof)

def unexpected (stop : Span) (what : Expectation) (ts : List Token) : SyntaxError :=
  ⟨here stop ts, .expected what (peek ts)⟩

theorem length_tail_lt {p : Token → Bool} {ts : List Token} (h : ts.head?.any p = true) :
    ts.tail.length < ts.length := by
  cases ts <;> simp_all

def eat (mark : Symbol) (ts : List Token) :
    Option { rest : List Token // rest.length < ts.length } :=
  if h : atSymbol mark ts then some ⟨ts.tail, length_tail_lt h⟩ else none

def eatWord (word : Keyword) (ts : List Token) :
    Option { rest : List Token // rest.length < ts.length } :=
  if h : atKeyword word ts then some ⟨ts.tail, length_tail_lt h⟩ else none

def skipSemicolons (ts : List Token) : { rest : List Token // rest.length ≤ ts.length } :=
  ⟨ts.dropWhile (·.isSymbol .semicolon), (List.dropWhile_suffix _).length_le⟩

def skipComma (ts : List Token) : { rest : List Token // rest.length ≤ ts.length } :=
  match eat .comma ts with
  | some ⟨rest, h⟩ => ⟨rest, Nat.le_of_lt h⟩
  | none => ⟨ts, Nat.le_refl _⟩

variable (stop : Span)

def symbol (mark : Symbol) (ts : List Token) : Outcome Unit ts.length :=
  if h : atSymbol mark ts then .ok ⟨(), ts.tail, length_tail_lt h⟩
  else .error (unexpected stop (.symbol mark) ts)

def keyword (word : Keyword) (ts : List Token) : Outcome Unit ts.length :=
  if h : atKeyword word ts then .ok ⟨(), ts.tail, length_tail_lt h⟩
  else .error (unexpected stop (.keyword word) ts)

def identifier (ts : List Token) : Outcome String ts.length :=
  match ts with
  | ⟨.ident name, _⟩ :: rest => .ok (.ofOne name rest)
  | _ => .error (unexpected stop .identifier ts)

def typeName (ts : List Token) : Outcome TypeExpr ts.length :=
  match ts with
  | ⟨.ident name, _⟩ :: ⟨.symbol .dot, _⟩ :: ⟨.ident member, _⟩ :: rest =>
    .ok (.past (.past (.ofOne (.named (name ++ "." ++ member)) rest)))
  | ⟨.ident name, _⟩ :: rest => .ok (.ofOne (.named name) rest)
  | _ => .error (unexpected stop .identifier ts)

def typeExpr (ts : List Token) : Outcome TypeExpr ts.length :=
  match ts with
  | ⟨.symbol .star, _⟩ :: rest => do
    let inner ← typeExpr rest
    return (inner.map .pointer).past
  | ⟨.symbol .tilde, _⟩ :: rest => do
    let inner ← typeExpr rest
    return (inner.map .approx).past
  | ⟨.symbol .lbracket, _⟩ :: rest => do
    let ⟨_, rest, h⟩ ← symbol stop .rbracket rest
    let element ← typeExpr rest
    return ((element.map .slice).below h).past
  | ⟨.keyword .mapWord, _⟩ :: rest => do
    let ⟨_, rest, h₁⟩ ← symbol stop .lbracket rest
    let ⟨key, rest, h₂⟩ ← typeExpr rest
    let ⟨_, rest, h₃⟩ ← symbol stop .rbracket rest
    let value ← typeExpr rest
    return (value.map (.map key) |>.below h₃ |>.below h₂ |>.below h₁).past
  | ts => typeName stop ts
termination_by ts.length

end Parser

end FieldAccess
