import FieldAccess.Proofs.TokenBoundaries
import FieldAccess.Source.Printer

namespace FieldAccess

namespace BinaryOp

def symbol : BinaryOp → Symbol
  | add => .plus
  | sub => .minus
  | mul => .star
  | div => .slash
  | mod => .percent
  | bitAnd => .amp
  | bitOr => .bar
  | bitXor => .caret
  | bitClear => .bitClear
  | shiftLeft => .shiftLeft
  | shiftRight => .shiftRight
  | eq => .eq
  | ne => .ne
  | lt => .lt
  | le => .le
  | gt => .gt
  | ge => .ge
  | and => .and
  | or => .or

theorem toList_render (op : BinaryOp) : op.render.toList = op.symbol.chars := by
  cases op <;> rfl

theorem precedence_lt (op : BinaryOp) : op.precedence < 6 := by
  cases op <;> decide

theorem precedence_pos (op : BinaryOp) : 1 ≤ op.precedence := by
  cases op <;> decide

theorem binary?_symbol (op : BinaryOp) : op.symbol.binary? = some op := by
  cases op <;> rfl

theorem symbol_apart (op : BinaryOp) : op.symbol ∉ [Symbol.dot, .lparen, .lbracket, .lbrace] := by
  cases op <;> decide

end BinaryOp

namespace UnaryOp

def symbol : UnaryOp → Symbol
  | plus => .plus
  | negate => .minus
  | not => .bang
  | complement => .caret
  | addressOf => .amp
  | deref => .star

theorem toList_render (op : UnaryOp) : op.render.toList = op.symbol.chars := by
  cases op <;> rfl

theorem unary?_symbol (op : UnaryOp) : op.symbol.unary? = some op := by
  cases op <;> rfl

end UnaryOp

-- The literals that are printed as one token without a sign.
def Literal.Printable : Literal → Prop
  | int value => 0 ≤ value.toInt
  | bool _ | nil => True
  | float _ | string _ => False

instance {value : Literal} : Decidable value.Printable :=
  match value with
  | .int value => inferInstanceAs (Decidable (0 ≤ value.toInt))
  | .bool _ | .nil => inferInstanceAs (Decidable True)
  | .float _ | .string _ => inferInstanceAs (Decidable False)

def Literal.kinds : Literal → List TokenKind
  | int value => [.int value]
  | float value => [.float value]
  | string text => [.string text]
  | bool true => [.ident "true"]
  | bool false => [.ident "false"]
  | nil => [.ident "nil"]

namespace Expr

def isUnary : Expr → Bool
  | unary _ _ _ => true
  | _ => false

mutual

-- Names, integers without a sign, the literals that are names, and what selectors, calls, indexes
-- and operators make of them, except for a unary operator right before another one.
def Printable : Expr → Prop
  | ident _ name => IsIdentifier name ∧ name ∉ ["true", "false", "nil"]
  | literal _ value => value.Printable
  | select _ base member => base.Printable ∧ IsIdentifier member
  | call _ callee typeArgs args => callee.Printable ∧ typeArgs = [] ∧ ArePrintable args
  | index _ base i => base.Printable ∧ i.Printable
  | binary _ _ left right => left.Printable ∧ right.Printable
  | unary _ _ operand => operand.Printable ∧ operand.isUnary = false
  | paren _ inner => inner.Printable
  | composite _ _ _ | typeOperand _ _ => False

def ArePrintable : List Expr → Prop
  | [] => True
  | e :: rest => e.Printable ∧ ArePrintable rest

end

mutual

def decidePrintable : (e : Expr) → Decidable e.Printable
  | ident _ name => inferInstanceAs (Decidable (IsIdentifier name ∧ name ∉ _))
  | literal _ value => inferInstanceAs (Decidable value.Printable)
  | select _ base member =>
    have := base.decidePrintable
    inferInstanceAs (Decidable (base.Printable ∧ IsIdentifier member))
  | call _ callee typeArgs args =>
    have := callee.decidePrintable
    have := decidePrintableAll args
    have := decidable_of_iff (typeArgs.isEmpty = true) List.isEmpty_iff
    inferInstanceAs (Decidable (callee.Printable ∧ typeArgs = [] ∧ ArePrintable args))
  | index _ base i =>
    have := base.decidePrintable
    have := i.decidePrintable
    inferInstanceAs (Decidable (base.Printable ∧ i.Printable))
  | binary _ _ left right =>
    have := left.decidePrintable
    have := right.decidePrintable
    inferInstanceAs (Decidable (left.Printable ∧ right.Printable))
  | unary _ _ operand =>
    have := operand.decidePrintable
    inferInstanceAs (Decidable (operand.Printable ∧ operand.isUnary = false))
  | paren _ inner => inner.decidePrintable
  | composite _ _ _ | typeOperand _ _ => inferInstanceAs (Decidable False)

def decidePrintableAll : (es : List Expr) → Decidable (ArePrintable es)
  | [] => inferInstanceAs (Decidable True)
  | e :: rest =>
    have := e.decidePrintable
    have := decidePrintableAll rest
    inferInstanceAs (Decidable (e.Printable ∧ ArePrintable rest))

end

instance {e : Expr} : Decidable e.Printable :=
  e.decidePrintable

-- The tokens of an operand, in parentheses if it binds less tightly than `least`.
def enclose (e : Expr) (least : Nat) (kinds : List TokenKind) : List TokenKind :=
  if e.precedence < least then .symbol .lparen :: (kinds ++ [.symbol .rparen]) else kinds

mutual

-- The tokens of a printed expression. Composite literals and types are left out.
def kinds : Expr → List TokenKind
  | ident _ name => [.ident name]
  | literal _ value => value.kinds
  | select _ base member => base.enclose 7 base.kinds ++ [.symbol .dot, .ident member]
  | call _ callee _ args =>
    callee.enclose 7 callee.kinds ++ .symbol .lparen :: (argumentKinds args ++ [.symbol .rparen])
  | index _ base i =>
    base.enclose 7 base.kinds ++ .symbol .lbracket :: (i.kinds ++ [.symbol .rbracket])
  | binary _ op left right =>
    left.enclose op.precedence left.kinds ++
      .symbol op.symbol :: right.enclose (op.precedence + 1) right.kinds
  | unary _ op operand => .symbol op.symbol :: operand.enclose 6 operand.kinds
  | paren _ inner => .symbol .lparen :: (inner.kinds ++ [.symbol .rparen])
  | composite _ _ _ | typeOperand _ _ => []

def argumentKinds : List Expr → List TokenKind
  | [] => []
  | e :: rest => e.kinds ++ moreKinds rest

-- The tokens of arguments with a comma before each.
def moreKinds : List Expr → List TokenKind
  | [] => []
  | e :: rest => .symbol .comma :: (e.kinds ++ moreKinds rest)

end

-- The text of an operand starts with no character that a symbol goes on with.
def StartsPlainly (text : List Char) : Prop :=
  ∃ c ∈ text.head?, c ∉ Symbol.continuations

theorem StartsPlainly.append {text : List Char} (h : StartsPlainly text) (rest : List Char) :
    StartsPlainly (text ++ rest) := by
  obtain ⟨c, hc, plain⟩ := h
  exact ⟨c, List.mem_head?_append_of_mem_head? hc, plain⟩

theorem StartsPlainly.reads_symbol {text rest : List Char} {mark : Symbol}
    (h : StartsPlainly text) : Token.Reads mark.chars [.symbol mark] (text ++ rest) :=
  Token.reads_symbol fun d hd => by
    obtain ⟨c, hc, plain⟩ := h.append rest
    obtain rfl : c = d := Option.some.inj (hc.symm.trans hd)
    exact Symbol.grows_eq_false plain

theorem startsPlainly_word {x : String} (word : Lexeme.IsWord x) : StartsPlainly x.toList :=
  let ⟨c, hc, start⟩ := word.start
  ⟨c, hc, Lexeme.not_continuation_of_start start⟩

theorem startsPlainly_literal {value : Literal} (h : value.Printable) :
    StartsPlainly value.render.toList := by
  cases value with
  | int value =>
    obtain ⟨c, cs, is⟩ := List.exists_cons_of_ne_nil
      (Nat.toDigits_ne_nil (n := value.toInt.toNat) (b := 10))
    have digit : c.isDigit = true :=
      Nat.isDigit_of_mem_toDigits (by decide) (by decide) (is ▸ List.mem_cons_self ..)
    refine ⟨c, ?_, (Lexeme.of_digit digit).2.2⟩
    rw [Literal.render, Token.toList_toString_toInt h, is]
    rfl
  | float value => exact h.elim
  | string text => exact h.elim
  | bool value => cases value <;> exact startsPlainly_word (by decide)
  | nil => exact startsPlainly_word (by decide)

theorem startsPlainly_operand {e : Expr} {least : Nat}
    (bare : least ≤ e.precedence → StartsPlainly e.render.toList) :
    StartsPlainly (e.renderOperand least).toList := by
  unfold renderOperand
  split
  case isTrue =>
    rw [String.toList_append, String.toList_append, List.append_assoc]
    exact ⟨'(', rfl, by decide⟩
  case isFalse strong => exact bare (Nat.le_of_not_lt strong)

-- By recursion to the first operand.
theorem startsPlainly : (e : Expr) → e.Printable → 7 ≤ e.precedence →
    StartsPlainly e.render.toList
  | ident _ name, ⟨h, _⟩, _ => by
    rw [render]
    exact startsPlainly_word (isIdentifier_iff.1 h)
  | literal _ value, h, _ => by
    rw [render]
    exact startsPlainly_literal h
  | select _ base member, ⟨h, _⟩, _ => by
    have start := startsPlainly_operand (startsPlainly base h)
    rw [render, String.toList_append, String.toList_append, List.append_assoc]
    exact start.append _
  | call _ callee _ args, ⟨h, _, _⟩, _ => by
    have start := startsPlainly_operand (startsPlainly callee h)
    simp only [render, String.toList_append, List.append_assoc]
    exact start.append _
  | index _ base i, ⟨h, _⟩, _ => by
    have start := startsPlainly_operand (startsPlainly base h)
    simp only [render, String.toList_append, List.append_assoc]
    exact start.append _
  | paren _ inner, _, _ => by
    simp only [render, String.toList_append, List.append_assoc]
    exact ⟨'(', rfl, by decide⟩
  | binary _ op _ _, _, strong =>
    absurd op.precedence_lt (Nat.not_lt.2 (Nat.le_of_succ_le strong))
  | unary _ _ _, _, strong => absurd strong (Nat.not_succ_le_self 6)

-- A row of arguments with a comma before each.
def moreText : List Expr → List Char
  | [] => []
  | e :: rest => ',' :: ' ' :: (e.render.toList ++ moreText rest)

theorem toList_renderAll (e : Expr) (rest : List Expr) :
    (", ".intercalate (renderAll (e :: rest))).toList = e.render.toList ++ moreText rest := by
  induction rest generalizing e with
  | nil => simp [renderAll, moreText]
  | cons f rest ih =>
    rw [moreText, renderAll, renderAll, String.intercalate_cons_cons, String.toList_append,
      String.toList_append, ← renderAll, ih]
    simp

theorem separates_moreText {rest : List Char} (h : Token.Separates rest) (args : List Expr) :
    Token.Separates (moreText args ++ rest) := by
  cases args with
  | nil => exact h
  | cons e args => exact Token.separates_bracket .comma (by decide)

theorem reads_operand {e : Expr} {least : Nat} {rest : List Char}
    (h : ∀ {rest}, Token.Separates rest → Token.Reads e.render.toList e.kinds rest)
    (after : Token.Separates rest) :
    Token.Reads (e.renderOperand least).toList (e.enclose least e.kinds) rest := by
  unfold renderOperand enclose
  split
  case isTrue =>
    rw [String.toList_append, String.toList_append, List.append_assoc]
    exact Token.reads_between .lparen .rparen (by decide) (by decide) h
  case isFalse => exact h after

theorem reads_literal {value : Literal} {rest : List Char} (h : value.Printable)
    (after : Token.Separates rest) : Token.Reads value.render.toList value.kinds rest := by
  cases value with
  | int value => exact Token.reads_number h after.digit after.point
  | float value => exact h.elim
  | string text => exact h.elim
  | bool value => cases value <;> exact Token.reads_word (by decide) after.word
  | nil => exact Token.reads_word (by decide) after.word

theorem separates_blank (rest : List Char) : Token.Separates (' ' :: rest) :=
  Token.separates_cons (by decide) (by decide)

theorem precedence_of_not_unary {e : Expr} (h : e.isUnary = false) (strong : 6 ≤ e.precedence) :
    7 ≤ e.precedence := by
  cases e with
  | unary => cases h
  | binary _ op _ _ => exact absurd op.precedence_lt (Nat.not_lt.2 strong)
  | _ => exact Nat.le_refl 7

mutual

-- By recursion on the expression: an operand is followed by a mark or a blank, and a unary operator
-- by a character that it does not go on with.
theorem reads_render : (e : Expr) → e.Printable → ∀ {rest}, Token.Separates rest →
    Token.Reads e.render.toList e.kinds rest
  | ident _ name, ⟨h, _⟩, rest, after => by
    rw [render, kinds]
    exact Token.reads_word (isIdentifier_iff.1 h) after.word
  | literal _ value, h, rest, after => by
    rw [render, kinds]
    exact reads_literal h after
  | select _ base member, ⟨h, word⟩, rest, after => by
    have word := isIdentifier_iff.1 word
    have point : Token.Reads ['.'] [.symbol .dot] (member.toList ++ rest) :=
      (startsPlainly_word word).reads_symbol
    have selector := point.cons (Token.reads_word word after.word)
    simp only [render, kinds, String.toList_append, List.append_assoc]
    exact (reads_operand (reads_render base h) (Token.separates_member word)).append selector
  | call _ callee _ args, ⟨h, untyped, hs⟩, rest, after => by
    simp only [render, kinds, untyped, String.toList_append, List.append_assoc]
    refine (reads_operand (reads_render callee h) ?_).append ?_
    · exact Token.separates_bracket .lparen (by decide)
    · exact Token.reads_between .lparen .rparen (by decide) (by decide)
        fun after => reads_arguments args hs after
  | index _ base i, ⟨h, hi⟩, rest, after => by
    simp only [render, kinds, String.toList_append, List.append_assoc]
    refine (reads_operand (reads_render base h) ?_).append ?_
    · exact Token.separates_bracket .lbracket (by decide)
    · exact Token.reads_between .lbracket .rbracket (by decide) (by decide)
        fun after => reads_render i hi after
  | binary _ op left right, ⟨hl, hr⟩, rest, after => by
    have sign (rest : List Char) :
        Token.Reads op.symbol.chars [.symbol op.symbol] (" ".toList ++ rest) :=
      Token.reads_symbol fun c hc => Option.some.inj hc ▸ Symbol.grows_eq_false (by decide)
    simp only [render, kinds, String.toList_append, List.append_assoc, op.toList_render]
    refine (reads_operand (reads_render left hl) (separates_blank _)).append ?_
    refine Token.Reads.afterBlank (Token.Reads.cons (sign _) (Token.Reads.afterBlank ?_))
    exact reads_operand (reads_render right hr) after
  | unary _ op operand, ⟨h, other⟩, rest, after => by
    have plain : StartsPlainly (operand.renderOperand 6).toList :=
      startsPlainly_operand fun strong =>
        startsPlainly operand h (precedence_of_not_unary other strong)
    rw [render, kinds, String.toList_append, op.toList_render]
    exact plain.reads_symbol.cons (reads_operand (reads_render operand h) after)
  | paren _ inner, h, rest, after => by
    rw [render, kinds, String.toList_append, String.toList_append, List.append_assoc]
    exact Token.reads_between .lparen .rparen (by decide) (by decide)
      fun after => reads_render inner h after

theorem reads_arguments : (args : List Expr) → ArePrintable args → ∀ {rest}, Token.Separates rest →
    Token.Reads (", ".intercalate (renderAll args)).toList (argumentKinds args) rest
  | [], _, rest, _ => by
    rw [renderAll, argumentKinds, String.intercalate_nil]
    exact Token.Reads.nil
  | e :: args, ⟨h, hs⟩, rest, after => by
    rw [toList_renderAll, argumentKinds]
    exact (reads_render e h (separates_moreText after args)).append (reads_more args hs after)

theorem reads_more : (args : List Expr) → ArePrintable args → ∀ {rest}, Token.Separates rest →
    Token.Reads (moreText args) (moreKinds args) rest
  | [], _, rest, _ => Token.Reads.nil
  | e :: args, ⟨h, hs⟩, rest, after => by
    rw [moreText, moreKinds]
    have first := reads_render e h (separates_moreText after args)
    exact (Token.reads_bracket .comma (by decide)).cons
      (Token.Reads.afterBlank (first.append (reads_more args hs after)))

end

theorem openAfter_enclose {e : Expr} {least : Nat}
    (h : ∀ isOpen, Token.openAfter isOpen e.kinds = true) (isOpen : Bool) :
    Token.openAfter isOpen (e.enclose least e.kinds) = true := by
  unfold enclose
  split
  case isTrue => rw [← List.cons_append, Token.openAfter_concat]; rfl
  case isFalse => exact h isOpen

-- The end of an expression can end a statement.
theorem openAfter_kinds : (e : Expr) → e.Printable → ∀ isOpen,
    Token.openAfter isOpen e.kinds = true
  | ident _ _, _, _ => by rw [kinds]; rfl
  | literal _ value, h, _ => by
    rw [kinds]
    cases value with
    | float _ => exact h.elim
    | bool value => cases value <;> rfl
    | _ => rfl
  | select _ _ _, _, isOpen => by
    rw [kinds, Token.openAfter_append]
    rfl
  | call _ _ _ _, _, isOpen => by
    rw [kinds, ← List.cons_append, ← List.append_assoc, Token.openAfter_concat]
    rfl
  | index _ _ _, _, isOpen => by
    rw [kinds, ← List.cons_append, ← List.append_assoc, Token.openAfter_concat]
    rfl
  | binary _ _ _ right, ⟨_, h⟩, isOpen => by
    rw [kinds, Token.openAfter_append, Token.openAfter_cons]
    exact openAfter_enclose (openAfter_kinds right h) _
  | unary _ _ operand, ⟨h, _⟩, isOpen => by
    rw [kinds, Token.openAfter_cons]
    exact openAfter_enclose (openAfter_kinds operand h) _
  | paren _ _, _, isOpen => by
    rw [kinds, ← List.cons_append, Token.openAfter_concat]
    rfl

theorem scan_render {e : Expr} (h : e.Printable) : ∃ tokens, Token.scan e.render = .ok tokens ∧
    tokens.map (·.kind) = e.kinds ++ [.symbol .semicolon, .eof] :=
  Token.scan_of_reads (reads_render e h Token.separates_nil) (openAfter_kinds e h false)

end Expr

end FieldAccess
