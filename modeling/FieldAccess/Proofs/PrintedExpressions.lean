import FieldAccess.Proofs.ExpressionTokens
import FieldAccess.Source.Parser.Decl

namespace FieldAccess

namespace Token

variable {ts : List Token} {kind : TokenKind} {kinds : List TokenKind}

theorem exists_cons (same : ts.map (·.kind) = kind :: kinds) :
    ∃ span rest, ts = ⟨kind, span⟩ :: rest ∧ rest.map (·.kind) = kinds := by
  obtain ⟨⟨_, span⟩, rest, rfl, rfl, tail⟩ := List.map_eq_cons_iff.1 same
  exact ⟨span, rest, rfl, tail⟩

theorem exists_concat (same : ts.map (·.kind) = kinds ++ [kind]) :
    ∃ front span, ts = front ++ [⟨kind, span⟩] ∧ front.map (·.kind) = kinds := by
  obtain ⟨front, last, rfl, rfl, tail⟩ := List.map_eq_append_iff.1 same
  obtain ⟨span, rest, rfl, none⟩ := exists_cons tail
  obtain rfl := List.map_eq_nil_iff.1 none
  exact ⟨front, span, rfl, rfl⟩

end Token

namespace Parser

-- The parser returns the value and leaves the tokens.
def Yields {α : Type} {n : Nat} (outcome : Outcome α n) (value : α) (rest : List Token) : Prop :=
  ∃ shorter, outcome = .ok ⟨value, rest, shorter⟩

variable {stop span : Span} {composites : Bool} {least : Nat} {left right base whole : Expr}
  {ts rest rest' : List Token}

theorem atSymbol_cons {mark : Symbol} {t : Token} {ts : List Token} :
    atSymbol mark (t :: ts) = true ↔ t.kind = .symbol mark := by
  obtain ⟨kind, span⟩ := t
  change Token.isSymbol mark ⟨kind, span⟩ = true ↔ kind = .symbol mark
  unfold Token.isSymbol
  split
  case h_1 other same =>
    obtain rfl : kind = .symbol other := same
    rw [decide_eq_true_iff, TokenKind.symbol.injEq]
  case h_2 other =>
    simp only [Bool.false_eq_true, false_iff]
    rintro rfl
    exact other _ rfl

-- A parser that hands over to another one.
theorem Yields.bind {α β : Type} {n k : Nat} {x : Outcome α n} {f : Parsed α n → Outcome β k}
    {a : α} {b : β} (h : Yields x a rest)
    (h' : ∀ shorter, Yields (f ⟨a, rest, shorter⟩) b rest') : Yields (x >>= f) b rest' := by
  obtain ⟨shorter, h⟩ := h
  obtain ⟨shorter', h'⟩ := h' shorter
  exact ⟨shorter', ok_bind.2 ⟨_, h, h'⟩⟩

theorem Yields.pure {α : Type} {n : Nat} {a : α} (p : Parsed α n) (value : p.value = a)
    (left : p.rest = rest) : Yields (Pure.pure p : Outcome α n) a rest := by
  subst value left
  exact ⟨p.shorter, rfl⟩

attribute [local simp] operand

theorem yields_binary (h : Yields (unary stop composites ts) left rest)
    (h' : Yields (operators stop composites least left rest) whole rest') :
    Yields (binary stop composites least ts) whole rest' := by
  rw [binary]
  exact h.bind fun _ => h'.bind fun _ => .pure _ rfl rfl

theorem yields_operators {mark : Symbol} {op : BinaryOp} (known : mark.binary? = some op)
    (strong : least ≤ op.precedence)
    (h : Yields (binary stop composites (op.precedence + 1) ts) right rest)
    (h' : Yields (operators stop composites least (.binary span op left right) rest) whole rest') :
    Yields (operators stop composites least left (⟨.symbol mark, span⟩ :: ts)) whole rest' := by
  rw [operators]
  simp only [known, strong, if_true]
  exact h.bind fun _ => h'.bind fun _ => .pure _ rfl rfl

-- An operator that binds less tightly is left to the caller.
theorem operators_end (h : ∀ mark op, atSymbol mark ts = true → mark.binary? = some op →
      op.precedence < least) :
    Yields (operators stop composites least left ts) left ts := by
  unfold operators
  split
  case h_1 mark span rest =>
    split
    case h_1 op known =>
      have weak := h mark op (atSymbol_cons.2 rfl) known
      rw [if_neg (Nat.not_le.2 weak)]
      exact ⟨_, rfl⟩
    case h_2 => exact ⟨_, rfl⟩
  case h_2 => exact ⟨_, rfl⟩

theorem yields_unary {mark : Symbol} {op : UnaryOp} {operand : Expr} (known : mark.unary? = some op)
    (h : Yields (unary stop composites ts) operand rest) :
    Yields (unary stop composites (⟨.symbol mark, span⟩ :: ts)) (.unary span op operand) rest := by
  rw [unary]
  simp only [known]
  exact h.bind fun _ => .pure _ rfl rfl

-- An operand without a sign takes what is written behind it.
theorem yields_suffixed (plain : ∀ mark, atSymbol mark ts = true → mark.unary? = none)
    (h : Yields (operand stop composites ts) base rest)
    (h' : Yields (suffixes stop base rest) whole rest') :
    Yields (unary stop composites ts) whole rest' := by
  have suffixed : Yields (suffixed stop composites ts) whole rest' := by
    rw [Parser.suffixed]
    exact h.bind fun _ => h'.bind fun _ => .pure _ rfl rfl
  unfold unary
  split
  case h_1 mark span rest =>
    have unsigned := plain mark (atSymbol_cons.2 rfl)
    simp only [unsigned]
    exact suffixed
  case h_2 => exact suffixed

theorem yields_select {point : Span} {member : String}
    (h : Yields (suffixes stop (.select span base member) ts) whole rest) :
    Yields (suffixes stop base (⟨.symbol .dot, span⟩ :: ⟨.ident member, point⟩ :: ts)) whole
      rest := by
  rw [suffixes]
  have named : Yields (identifier stop (⟨.ident member, point⟩ :: ts)) member ts := ⟨_, rfl⟩
  exact named.bind fun _ => h.bind fun _ => .pure _ rfl rfl

theorem yields_call {args : List Expr} (h : Yields (arguments stop ts) args rest)
    (h' : Yields (suffixes stop (.call span base [] args) rest) whole rest') :
    Yields (suffixes stop base (⟨.symbol .lparen, span⟩ :: ts)) whole rest' := by
  rw [suffixes]
  exact h.bind fun _ => h'.bind fun _ => .pure _ rfl rfl

theorem yields_symbol {mark : Symbol} :
    Yields (symbol stop mark (⟨.symbol mark, span⟩ :: ts)) () ts := by
  have next : atSymbol mark (⟨.symbol mark, span⟩ :: ts) = true := atSymbol_cons.2 rfl
  rw [symbol, dif_pos next]
  exact ⟨_, rfl⟩

theorem yields_index {close : Span} {i : Expr}
    (h : Yields (binary stop true 1 ts) i (⟨.symbol .rbracket, close⟩ :: rest))
    (h' : Yields (suffixes stop (.index span base i) rest) whole rest') :
    Yields (suffixes stop base (⟨.symbol .lbracket, span⟩ :: ts)) whole rest' := by
  rw [suffixes, expr]
  exact h.bind fun _ => yields_symbol.bind fun _ => h'.bind fun _ => .pure _ rfl rfl

theorem suffixes_end
    (h : ∀ mark ∈ [Symbol.dot, .lparen, .lbracket], atSymbol mark ts = false) :
    Yields (suffixes stop base ts) base ts := by
  unfold suffixes
  split
  case h_1 => exact absurd (atSymbol_cons.2 rfl) (Bool.eq_false_iff.1 (h .dot (by decide)))
  case h_2 => exact absurd (atSymbol_cons.2 rfl) (Bool.eq_false_iff.1 (h .lparen (by decide)))
  case h_3 => exact absurd (atSymbol_cons.2 rfl) (Bool.eq_false_iff.1 (h .lbracket (by decide)))
  case h_4 => exact ⟨_, rfl⟩

theorem operand_int {value : Int64} :
    Yields (operand stop composites (⟨.int value, span⟩ :: ts)) (.literal span (.int value))
      ts := by
  simp [Yields, Parsed.ofOne]

theorem operand_name {text : String} (h : atSymbol .lbrace ts = false) :
    Yields (operand stop composites (⟨.ident text, span⟩ :: ts)) (name span text) ts := by
  simp [Yields, Parsed.ofOne, h]

theorem operand_paren {inner : Expr} (close : Span)
    (h : Yields (binary stop true 1 ts) inner (⟨.symbol .rparen, close⟩ :: rest)) :
    Yields (operand stop composites (⟨.symbol .lparen, span⟩ :: ts)) (.paren span inner) rest := by
  rw [operand, expr]
  exact h.bind fun _ => yields_symbol.bind fun _ => ⟨_, rfl⟩

theorem name_eq_ident {text : String} (h : text ∉ ["true", "false", "nil"]) :
    name span text = .ident span text := by
  simp only [List.mem_cons, List.not_mem_nil, or_false, not_or] at h
  simp [name, h]

-- A closing parenthesis starts no operand.
theorem not_rparen (h : Yields (binary stop composites least ts) whole rest) :
    atSymbol .rparen ts = false := by
  rw [Bool.eq_false_iff]
  intro close
  cases ts with
  | nil => cases close
  | cons t ts =>
    obtain ⟨kind, span⟩ := t
    obtain rfl : kind = .symbol .rparen := atSymbol_cons.1 close
    obtain ⟨_, h⟩ := h
    have fails : ∃ e, operand stop composites (⟨.symbol .rparen, span⟩ :: ts) = .error e := by
      unfold operand
      exact ⟨_, rfl⟩
    obtain ⟨e, fails⟩ := fails
    rw [binary, unary] at h
    simp only [Symbol.unary?] at h
    rw [suffixed, fails] at h
    cases h

theorem eat_cons {mark : Symbol} :
    eat mark (⟨.symbol mark, span⟩ :: ts) = some ⟨ts, Nat.lt_succ_self _⟩ :=
  dif_pos (atSymbol_cons.2 rfl)

theorem arguments_nil : Yields (arguments stop (⟨.symbol .rparen, span⟩ :: ts)) [] ts := by
  rw [arguments, eat_cons]
  exact ⟨_, rfl⟩

theorem arguments_last {arg : Expr}
    (h : Yields (binary stop true 1 ts) arg (⟨.symbol .rparen, span⟩ :: rest)) :
    Yields (arguments stop ts) [arg] rest := by
  have go : eat .rparen ts = none := dif_neg (Bool.eq_false_iff.1 (not_rparen h))
  rw [arguments, go, expr]
  refine h.bind fun _ => ?_
  simp only [eat_cons]
  exact ⟨_, rfl⟩

theorem arguments_comma {arg : Expr} {args : List Expr}
    (h : Yields (binary stop true 1 ts) arg (⟨.symbol .comma, span⟩ :: rest))
    (h' : Yields (arguments stop rest) args rest') :
    Yields (arguments stop ts) (arg :: args) rest' := by
  have go : eat .rparen ts = none := dif_neg (Bool.eq_false_iff.1 (not_rparen h))
  have more : eat .rparen (⟨.symbol .comma, span⟩ :: rest) = none := rfl
  rw [arguments, go, expr]
  refine h.bind fun _ => ?_
  simp only [more]
  exact yields_symbol.bind fun _ => h'.bind fun _ => ⟨_, rfl⟩

-- Tokens after which an operand of the strength is complete.
structure Ends (strength : Nat) (ts : List Token) : Prop where
  apart : ∀ mark ∈ [Symbol.dot, .lparen, .lbracket, .lbrace], atSymbol mark ts = false
  weak : ∀ mark op, atSymbol mark ts = true → mark.binary? = some op → op.precedence ≤ strength

theorem Ends.mono {strength strength' : Nat} (h : Ends strength ts) (le : strength ≤ strength') :
    Ends strength' ts :=
  ⟨h.apart, fun mark op next known => Nat.le_trans (h.weak mark op next known) le⟩

theorem ends_cons {mark : Symbol} {strength : Nat}
    (apart : mark ∉ [Symbol.dot, .lparen, .lbracket, .lbrace])
    (weak : ∀ op, mark.binary? = some op → op.precedence ≤ strength) :
    Ends strength (⟨.symbol mark, span⟩ :: ts) where
  apart other mem := by
    rw [Bool.eq_false_iff]
    intro next
    obtain rfl : mark = other := TokenKind.symbol.inj (atSymbol_cons.1 next)
    exact apart mem
  weak other op next known := by
    obtain rfl : mark = other := TokenKind.symbol.inj (atSymbol_cons.1 next)
    exact weak op known

theorem ends_operator {op : BinaryOp} {strength : Nat} (le : op.precedence ≤ strength) :
    Ends strength (⟨.symbol op.symbol, span⟩ :: ts) :=
  ends_cons op.symbol_apart fun other same => by
    obtain rfl : op = other := Option.some.inj (op.binary?_symbol.symm.trans same)
    exact le

-- The tokens are read as the expression, and what comes after them as if it stood behind it.
structure ReadAs (stop : Span) (ts : List Token) (strength : Nat) (e : Expr) : Prop where
  whole : ∀ {composites least rest v rest'}, least ≤ strength → Ends strength rest →
    Yields (operators stop composites least e rest) v rest' →
    Yields (binary stop composites least (ts ++ rest)) v rest'
  signed : 6 ≤ strength → ∀ {composites rest}, Ends strength rest →
    Yields (unary stop composites (ts ++ rest)) e rest
  base : 7 ≤ strength → ∀ {composites rest v rest'}, atSymbol .lbrace rest = false →
    Yields (suffixes stop e rest) v rest' → Yields (unary stop composites (ts ++ rest)) v rest'

namespace ReadAs

theorem of_signed {e : Expr}
    (h : ∀ {composites rest}, Ends 6 rest → Yields (unary stop composites (ts ++ rest)) e rest) :
    ReadAs stop ts 6 e where
  whole _ ends next := yields_binary (h ends) next
  signed _ := h
  base strong := absurd strong (Nat.not_succ_le_self 6)

theorem of_base {e : Expr}
    (h : ∀ {composites rest v rest'}, atSymbol .lbrace rest = false →
      Yields (suffixes stop e rest) v rest' →
      Yields (unary stop composites (ts ++ rest)) v rest') :
    ReadAs stop ts 7 e :=
  have signed {composites : Bool} {rest : List Token} (ends : Ends 7 rest) :
      Yields (unary stop composites (ts ++ rest)) e rest :=
    h (ends.apart .lbrace (by decide))
      (suffixes_end fun mark mem => ends.apart mark (List.mem_append_left [Symbol.lbrace] mem))
  { whole := fun _ ends next => yields_binary (signed ends) next
    signed := fun _ => signed
    base := fun _ => h }

-- Before a mark that is no operator, the expression is complete.
theorem alone {strength : Nat} {e : Expr} {mark : Symbol} (h : ReadAs stop ts strength e)
    (positive : 1 ≤ strength) (closes : mark ∈ [Symbol.rparen, .rbracket, .comma, .semicolon]) :
    Yields (binary stop composites 1 (ts ++ ⟨.symbol mark, span⟩ :: rest)) e
      (⟨.symbol mark, span⟩ :: rest) := by
  have marks : ∀ mark ∈ [Symbol.rparen, .rbracket, .comma, .semicolon],
      mark ∉ [Symbol.dot, .lparen, .lbracket, .lbrace] ∧ mark.binary? = none := by decide
  obtain ⟨apart, none⟩ := marks mark closes
  refine h.whole positive (ends_cons apart fun op known => ?_)
    (operators_end fun other op next known => ?_)
  · simp [none] at known
  · obtain rfl : mark = other := TokenKind.symbol.inj (atSymbol_cons.1 next)
    simp [none] at known

theorem paren {strength : Nat} {e : Expr} {close : Span} (h : ReadAs stop ts strength e)
    (positive : 1 ≤ strength) :
    ReadAs stop (⟨.symbol .lparen, span⟩ :: (ts ++ [⟨.symbol .rparen, close⟩])) 7 (.paren span e) :=
  of_base fun brace next => by
    refine yields_suffixed (fun mark start => ?_) (operand_paren close ?_) next
    · obtain rfl : .lparen = mark := TokenKind.symbol.inj (atSymbol_cons.1 start)
      rfl
    · rw [List.append_eq, List.append_assoc]
      exact h.alone positive (by decide)

theorem name {text : String} : ReadAs stop [⟨.ident text, span⟩] 7 (Parser.name span text) :=
  of_base fun brace next =>
    yields_suffixed (fun _ start => by cases atSymbol_cons.1 start) (operand_name brace) next

theorem int {value : Int64} : ReadAs stop [⟨.int value, span⟩] 7 (.literal span (.int value)) :=
  of_base fun _ next =>
    yields_suffixed (fun _ start => by cases atSymbol_cons.1 start) operand_int next

theorem literal {value : Literal} (printable : value.Printable)
    (same : ts.map (·.kind) = value.kinds) : ∃ span, ReadAs stop ts 7 (.literal span value) := by
  cases value with
  | int value =>
    obtain ⟨span, rest, rfl, none⟩ := Token.exists_cons same
    obtain rfl := List.map_eq_nil_iff.1 none
    exact ⟨span, int⟩
  | float _ => exact printable.elim
  | string _ => exact printable.elim
  | bool value =>
    cases value
    all_goals
      obtain ⟨span, rest, rfl, none⟩ := Token.exists_cons same
      obtain rfl := List.map_eq_nil_iff.1 none
      exact ⟨span, name⟩
  | nil =>
    obtain ⟨span, rest, rfl, none⟩ := Token.exists_cons same
    obtain rfl := List.map_eq_nil_iff.1 none
    exact ⟨span, name⟩

section

variable {strength strength' : Nat} {as rs : List Token} {close : Span}

theorem select {member : String} {point : Span} (h : ReadAs stop ts strength base)
    (strong : 7 ≤ strength) :
    ReadAs stop (ts ++ [⟨.symbol .dot, span⟩, ⟨.ident member, point⟩]) 7
      (.select span base member) :=
  of_base fun _ next => by
    rw [List.append_assoc]
    exact h.base strong rfl (yields_select next)

theorem call {args : List Expr} (h : ReadAs stop ts strength base) (strong : 7 ≤ strength)
    (read : ∀ rest, Yields (arguments stop (as ++ ⟨.symbol .rparen, close⟩ :: rest)) args rest) :
    ReadAs stop (ts ++ ⟨.symbol .lparen, span⟩ :: (as ++ [⟨.symbol .rparen, close⟩])) 7
      (.call span base [] args) :=
  of_base fun _ next => by
    rw [List.append_assoc, List.cons_append, List.append_assoc]
    exact h.base strong rfl (yields_call (read _) next)

theorem index {i : Expr} (h : ReadAs stop ts strength base) (strong : 7 ≤ strength)
    (read : ReadAs stop as strength' i) (positive : 1 ≤ strength') :
    ReadAs stop (ts ++ ⟨.symbol .lbracket, span⟩ :: (as ++ [⟨.symbol .rbracket, close⟩])) 7
      (.index span base i) :=
  of_base fun _ next => by
    rw [List.append_assoc, List.cons_append, List.append_assoc]
    exact h.base strong rfl (yields_index (read.alone positive (by decide)) next)

-- The left operand ends at the operator, and the right one before the next operator that binds no
-- more tightly.
theorem binary {op : BinaryOp} (h : ReadAs stop ts strength left)
    (strong : op.precedence ≤ strength) (h' : ReadAs stop rs strength' right)
    (strong' : op.precedence + 1 ≤ strength') :
    ReadAs stop (ts ++ ⟨.symbol op.symbol, span⟩ :: rs) op.precedence
      (.binary span op left right) where
  whole le ends next := by
    rw [List.append_assoc]
    refine h.whole (Nat.le_trans le strong) (ends_operator strong)
      (yields_operators op.binary?_symbol le ?_ next)
    refine h'.whole strong' (ends.mono (Nat.le_of_succ_le strong')) (operators_end ?_)
    exact fun mark other start same => Nat.lt_succ_of_le (ends.weak mark other start same)
  signed tight := absurd op.precedence_lt (Nat.not_lt.2 tight)
  base tight := absurd op.precedence_lt (Nat.not_lt.2 (Nat.le_of_succ_le tight))

theorem unary {op : UnaryOp} {operand : Expr} (h : ReadAs stop ts strength operand)
    (strong : 6 ≤ strength) :
    ReadAs stop (⟨.symbol op.symbol, span⟩ :: ts) 6 (.unary span op operand) :=
  of_signed fun ends => yields_unary op.unary?_symbol (h.signed strong (ends.mono strong))

end

end ReadAs

end Parser

namespace Expr

mutual

-- The expression without its parentheses and positions.
def skeleton : Expr → Expr
  | ident _ name => ident .nowhere name
  | literal _ value => literal .nowhere value
  | select _ base member => select .nowhere base.skeleton member
  | call _ callee typeArgs args => call .nowhere callee.skeleton typeArgs (skeletons args)
  | index _ base i => index .nowhere base.skeleton i.skeleton
  | binary _ op left right => binary .nowhere op left.skeleton right.skeleton
  | unary _ op operand => unary .nowhere op operand.skeleton
  | paren _ inner => inner.skeleton
  | composite _ type elements => composite .nowhere type (elementSkeletons elements)
  | typeOperand _ type => typeOperand .nowhere type

def skeletons : List Expr → List Expr
  | [] => []
  | e :: rest => e.skeleton :: skeletons rest

def elementSkeletons : List Element → List Element
  | [] => []
  | .positional value :: rest => .positional value.skeleton :: elementSkeletons rest
  | .keyed key value :: rest => .keyed key.skeleton value.skeleton :: elementSkeletons rest

end

section

variable {stop : Span} {e : Expr} {ts : List Token}

theorem precedence_pos (e : Expr) : 1 ≤ e.precedence := by
  cases e with
  | binary _ op _ _ => exact op.precedence_pos
  | _ => exact Nat.le_add_left 1 _

-- An operand, with the parentheses that it is printed in.
theorem readAs_operand {least : Nat} (le : least ≤ 7)
    (h : ∀ {ts : List Token}, ts.map (·.kind) = e.kinds →
      ∃ e', Parser.ReadAs stop ts e.precedence e' ∧ e'.skeleton = e.skeleton)
    (same : ts.map (·.kind) = e.enclose least e.kinds) :
    ∃ strength e', least ≤ strength ∧ Parser.ReadAs stop ts strength e' ∧
      e'.skeleton = e.skeleton := by
  unfold enclose at same
  split at same
  case isTrue =>
    obtain ⟨opening, ts, rfl, tail⟩ := Token.exists_cons same
    obtain ⟨ts, closing, rfl, inner⟩ := Token.exists_concat tail
    obtain ⟨e', read, like⟩ := h inner
    refine ⟨7, .paren opening e', le, read.paren e.precedence_pos, ?_⟩
    rw [skeleton, like]
  case isFalse strong =>
    obtain ⟨e', read, like⟩ := h same
    exact ⟨e.precedence, e', Nat.le_of_not_lt strong, read, like⟩

mutual

-- By recursion on the expression: its operands are printed with parentheses where they bind less
-- tightly than the parser goes on for.
theorem readAs : (e : Expr) → e.Printable → ∀ {ts : List Token}, ts.map (·.kind) = e.kinds →
    ∃ e', Parser.ReadAs stop ts e.precedence e' ∧ e'.skeleton = e.skeleton
  | ident _ name, ⟨_, plain⟩, ts, same => by
    obtain ⟨span, rest, rfl, none⟩ := Token.exists_cons (same.trans (kinds.eq_def _))
    obtain rfl := List.map_eq_nil_iff.1 none
    refine ⟨_, .name, ?_⟩
    rw [Parser.name_eq_ident plain, skeleton, skeleton]
  | literal _ value, printable, ts, same => by
    rw [kinds] at same
    obtain ⟨span, read⟩ := Parser.ReadAs.literal printable same
    exact ⟨_, read, by rw [skeleton, skeleton]⟩
  | select _ base member, ⟨h, _⟩, ts, same => by
    rw [kinds] at same
    obtain ⟨bs, ms, rfl, inner, tail⟩ := List.map_eq_append_iff.1 same
    obtain ⟨dot, ms, rfl, named⟩ := Token.exists_cons tail
    obtain ⟨point, rest, rfl, none⟩ := Token.exists_cons named
    obtain rfl := List.map_eq_nil_iff.1 none
    obtain ⟨_, base', strong, read, like⟩ :=
      readAs_operand (Nat.le_refl 7) (fun same => readAs base h same) inner
    refine ⟨_, read.select strong, ?_⟩
    rw [skeleton, skeleton, like]
  | call _ callee _ args, ⟨h, untyped, hs⟩, ts, same => by
    rw [kinds] at same
    obtain ⟨cs, ps, rfl, inner, tail⟩ := List.map_eq_append_iff.1 same
    obtain ⟨opening, ps, rfl, closed⟩ := Token.exists_cons tail
    obtain ⟨as, closing, rfl, between⟩ := Token.exists_concat closed
    obtain ⟨_, callee', strong, read, like⟩ :=
      readAs_operand (Nat.le_refl 7) (fun same => readAs callee h same) inner
    obtain ⟨args', readArgs, alike⟩ := yields_arguments args hs between
    refine ⟨_, read.call strong fun _ => readArgs, ?_⟩
    rw [skeleton, skeleton, like, alike, untyped]
  | index _ base i, ⟨h, hi⟩, ts, same => by
    rw [kinds] at same
    obtain ⟨bs, is, rfl, inner, tail⟩ := List.map_eq_append_iff.1 same
    obtain ⟨opening, is, rfl, closed⟩ := Token.exists_cons tail
    obtain ⟨is, closing, rfl, between⟩ := Token.exists_concat closed
    obtain ⟨_, base', strong, read, like⟩ :=
      readAs_operand (Nat.le_refl 7) (fun same => readAs base h same) inner
    obtain ⟨i', readIndex, alike⟩ := readAs i hi between
    refine ⟨_, read.index strong readIndex i.precedence_pos, ?_⟩
    rw [skeleton, skeleton, like, alike]
  | binary _ op left right, ⟨hl, hr⟩, ts, same => by
    rw [kinds] at same
    obtain ⟨ls, rs, rfl, first, tail⟩ := List.map_eq_append_iff.1 same
    obtain ⟨sign, rs, rfl, second⟩ := Token.exists_cons tail
    have tight := op.precedence_lt
    obtain ⟨_, left', strong, read, like⟩ :=
      readAs_operand (Nat.le_succ_of_le tight.le) (fun same => readAs left hl same) first
    obtain ⟨_, right', strong', read', like'⟩ :=
      readAs_operand (Nat.le_succ_of_le tight) (fun same => readAs right hr same) second
    refine ⟨_, read.binary strong read' strong', ?_⟩
    rw [skeleton, skeleton, like, like']
  | unary _ op operand, ⟨h, _⟩, ts, same => by
    rw [kinds] at same
    obtain ⟨sign, os, rfl, inner⟩ := Token.exists_cons same
    obtain ⟨_, operand', strong, read, like⟩ :=
      readAs_operand (by decide) (fun same => readAs operand h same) inner
    refine ⟨_, read.unary strong, ?_⟩
    rw [skeleton, skeleton, like]
  | paren _ inner, h, ts, same => by
    rw [kinds] at same
    obtain ⟨opening, ts, rfl, tail⟩ := Token.exists_cons same
    obtain ⟨ts, closing, rfl, between⟩ := Token.exists_concat tail
    obtain ⟨inner', read, like⟩ := readAs inner h between
    refine ⟨_, read.paren inner.precedence_pos, ?_⟩
    rw [skeleton, skeleton, like]

theorem yields_arguments : (args : List Expr) → ArePrintable args → ∀ {ts : List Token},
    ts.map (·.kind) = argumentKinds args → ∃ args', (∀ {close rest},
      Parser.Yields (Parser.arguments stop (ts ++ ⟨.symbol .rparen, close⟩ :: rest)) args' rest) ∧
      skeletons args' = skeletons args
  | [], _, ts, same => by
    obtain rfl := List.map_eq_nil_iff.1 same
    exact ⟨[], Parser.arguments_nil, rfl⟩
  | [e], ⟨h, _⟩, ts, same => by
    rw [argumentKinds, moreKinds, List.append_nil] at same
    obtain ⟨e', read, like⟩ := readAs e h same
    refine ⟨[e'], Parser.arguments_last (read.alone e.precedence_pos (by decide)), ?_⟩
    simp only [skeletons, like]
  | e :: f :: rest, ⟨h, hs⟩, ts, same => by
    rw [argumentKinds, moreKinds] at same
    obtain ⟨es, fs, rfl, first, tail⟩ := List.map_eq_append_iff.1 same
    obtain ⟨comma, fs, rfl, second⟩ := Token.exists_cons tail
    obtain ⟨e', read, like⟩ := readAs e h first
    rw [← argumentKinds] at second
    obtain ⟨rest', readRest, alike⟩ := yields_arguments (f :: rest) hs second
    refine ⟨e' :: rest', fun {close more} => ?_, ?_⟩
    · rw [List.append_assoc]
      exact Parser.arguments_comma (read.alone e.precedence_pos (by decide)) readRest
    · simp only [skeletons, like, alike]

end

end

end Expr

namespace Parser

-- A printed expression is scanned and parsed up to the semicolon that ends it, and the tree differs
-- from the one it was printed from in parentheses only.
theorem expr_of_scan_render {e : Expr} (printable : e.Printable) (stop : Span) (composites : Bool) :
    ∃ tokens e' rest, Token.scan e.render = .ok tokens ∧
      Yields (expr stop composites tokens) e' rest ∧
      rest.map (·.kind) = [.symbol .semicolon, .eof] ∧ e'.skeleton = e.skeleton := by
  obtain ⟨tokens, scanned, same⟩ := Expr.scan_render printable
  obtain ⟨ts, rest, rfl, front, tail⟩ := List.map_eq_append_iff.1 same
  obtain ⟨last, rest, rfl, _⟩ := Token.exists_cons tail
  obtain ⟨e', read, like⟩ := Expr.readAs e printable front
  refine ⟨_, e', _, scanned, ?_, tail, like⟩
  rw [expr]
  exact read.alone e.precedence_pos (by decide)

-- The expression `(-(a - (b - 1)) + f(nil, !c)[i].d) * e`, without parentheses in the tree.
def nested : Expr :=
  let x (name : String) : Expr := .ident .nowhere name
  let inner := .binary .nowhere .sub (x "b") (.literal .nowhere (.int 1))
  let negated := .unary .nowhere .negate (.binary .nowhere .sub (x "a") inner)
  let called := .call .nowhere (x "f") [] [.literal .nowhere .nil, .unary .nowhere .not (x "c")]
  let member := .select .nowhere (.index .nowhere called (x "i")) "d"
  .binary .nowhere .mul (.binary .nowhere .add negated member) (x "e")

theorem expr_of_scan_render_nested : nested.Printable ∧
    ∃ tokens e' rest, Token.scan nested.render = .ok tokens ∧
      Yields (expr .nowhere true tokens) e' rest ∧
      rest.map (·.kind) = [.symbol .semicolon, .eof] ∧ e'.skeleton = nested.skeleton :=
  have printable : nested.Printable := by decide
  ⟨printable, expr_of_scan_render printable .nowhere true⟩

end Parser

end FieldAccess
