import FieldAccess.Decimal.Layout
import FieldAccess.Syntax.Operator
import FieldAccess.Syntax.Span
import FieldAccess.Text.Quoted

namespace FieldAccess

inductive Keyword where
  | breakWord
  | caseWord
  | constWord
  | continueWord
  | defaultWord
  | elseWord
  | forWord
  | funcWord
  | ifWord
  | mapWord
  | rangeWord
  | returnWord
  | structWord
  | switchWord
  | typeWord
  | varWord
deriving DecidableEq, Repr

namespace Keyword

def all : List Keyword :=
  [.breakWord, .caseWord, .constWord, .continueWord, .defaultWord, .elseWord, .forWord, .funcWord,
   .ifWord, .mapWord, .rangeWord, .returnWord, .structWord, .switchWord, .typeWord, .varWord]

def render : Keyword → String
  | breakWord => "break"
  | caseWord => "case"
  | constWord => "const"
  | continueWord => "continue"
  | defaultWord => "default"
  | elseWord => "else"
  | forWord => "for"
  | funcWord => "func"
  | ifWord => "if"
  | mapWord => "map"
  | rangeWord => "range"
  | returnWord => "return"
  | structWord => "struct"
  | switchWord => "switch"
  | typeWord => "type"
  | varWord => "var"

def ofString? (text : String) : Option Keyword :=
  all.find? (·.render = text)

end Keyword

inductive Symbol where
  | shiftLeftAssign
  | shiftRightAssign
  | bitClearAssign
  | ellipsis
  | define
  | eq
  | ne
  | le
  | ge
  | and
  | or
  | shiftLeft
  | shiftRight
  | bitClear
  | increment
  | decrement
  | addAssign
  | subAssign
  | mulAssign
  | divAssign
  | modAssign
  | andAssign
  | orAssign
  | xorAssign
  | plus
  | minus
  | star
  | slash
  | percent
  | amp
  | bar
  | caret
  | lt
  | gt
  | assign
  | bang
  | lparen
  | rparen
  | lbracket
  | rbracket
  | lbrace
  | rbrace
  | comma
  | semicolon
  | dot
  | colon
  | tilde
deriving DecidableEq, Repr

namespace Symbol

-- All symbols, the longer ones first: the first that fits is the longest that fits.
def all : List Symbol :=
  [.shiftLeftAssign, .shiftRightAssign, .bitClearAssign, .ellipsis, .define, .eq, .ne, .le, .ge,
   .and, .or, .shiftLeft, .shiftRight, .bitClear, .increment, .decrement, .addAssign, .subAssign,
   .mulAssign, .divAssign, .modAssign, .andAssign, .orAssign, .xorAssign, .plus, .minus, .star,
   .slash, .percent, .amp, .bar, .caret, .lt, .gt, .assign, .bang, .lparen, .rparen, .lbracket,
   .rbracket, .lbrace, .rbrace, .comma, .semicolon, .dot, .colon, .tilde]

def chars : Symbol → List Char
  | shiftLeftAssign => ['<', '<', '=']
  | shiftRightAssign => ['>', '>', '=']
  | bitClearAssign => ['&', '^', '=']
  | ellipsis => ['.', '.', '.']
  | define => [':', '=']
  | eq => ['=', '=']
  | ne => ['!', '=']
  | le => ['<', '=']
  | ge => ['>', '=']
  | and => ['&', '&']
  | or => ['|', '|']
  | shiftLeft => ['<', '<']
  | shiftRight => ['>', '>']
  | bitClear => ['&', '^']
  | increment => ['+', '+']
  | decrement => ['-', '-']
  | addAssign => ['+', '=']
  | subAssign => ['-', '=']
  | mulAssign => ['*', '=']
  | divAssign => ['/', '=']
  | modAssign => ['%', '=']
  | andAssign => ['&', '=']
  | orAssign => ['|', '=']
  | xorAssign => ['^', '=']
  | plus => ['+']
  | minus => ['-']
  | star => ['*']
  | slash => ['/']
  | percent => ['%']
  | amp => ['&']
  | bar => ['|']
  | caret => ['^']
  | lt => ['<']
  | gt => ['>']
  | assign => ['=']
  | bang => ['!']
  | lparen => ['(']
  | rparen => [')']
  | lbracket => ['[']
  | rbracket => [']']
  | lbrace => ['\x7b']
  | rbrace => ['\x7d']
  | comma => [',']
  | semicolon => [';']
  | dot => ['.']
  | colon => [':']
  | tilde => ['~']

def render (s : Symbol) : String :=
  String.ofList s.chars

def binary? : Symbol → Option BinaryOp
  | plus => some .add
  | minus => some .sub
  | star => some .mul
  | slash => some .div
  | percent => some .mod
  | amp => some .bitAnd
  | bar => some .bitOr
  | caret => some .bitXor
  | bitClear => some .bitClear
  | shiftLeft => some .shiftLeft
  | shiftRight => some .shiftRight
  | eq => some .eq
  | ne => some .ne
  | lt => some .lt
  | le => some .le
  | gt => some .gt
  | ge => some .ge
  | and => some .and
  | or => some .or
  | _ => none

def unary? : Symbol → Option UnaryOp
  | plus => some .plus
  | minus => some .negate
  | bang => some .not
  | caret => some .complement
  | amp => some .addressOf
  | star => some .deref
  | _ => none

def assignment? : Symbol → Option AssignOp
  | assign => some .assign
  | define => some .define
  | addAssign => some (.compound .add)
  | subAssign => some (.compound .sub)
  | mulAssign => some (.compound .mul)
  | divAssign => some (.compound .div)
  | modAssign => some (.compound .mod)
  | andAssign => some (.compound .bitAnd)
  | orAssign => some (.compound .bitOr)
  | xorAssign => some (.compound .bitXor)
  | bitClearAssign => some (.compound .bitClear)
  | shiftLeftAssign => some (.compound .shiftLeft)
  | shiftRightAssign => some (.compound .shiftRight)
  | _ => none

end Symbol

inductive TokenKind where
  | ident (name : String)
  | int (value : Int64)
  | float (value : Float)
  | string (text : String)
  | keyword (word : Keyword)
  | symbol (mark : Symbol)
  | eof

namespace TokenKind

-- Whether a line break after such a token ends the statement.
def endsStatement : TokenKind → Bool
  | ident _ | int _ | float _ | string _ => true
  | keyword word => word = .breakWord || word = .continueWord || word = .returnWord
  | symbol mark =>
    mark = .rparen || mark = .rbracket || mark = .rbrace || mark = .increment || mark = .decrement
  | eof => false

def describe : TokenKind → String
  | ident name => "Ident(" ++ Text.quote name ++ ")"
  | int value => "Int(" ++ toString value.toInt ++ ")"
  | float value => "Float(" ++ Decimal.literal value ++ ")"
  | string text => "Str(" ++ Text.quote text ++ ")"
  | keyword word => "Keyword(" ++ Text.quote word.render ++ ")"
  | symbol mark => "Punct(" ++ Text.quote mark.render ++ ")"
  | eof => "Eof"

end TokenKind

structure Token where
  kind : TokenKind
  span : Span

inductive Expectation where
  | symbol (mark : Symbol)
  | keyword (word : Keyword)
  | identifier
  | separator
  | condition
  | expression
deriving DecidableEq, Repr

def Expectation.describe : Expectation → String
  | symbol mark => "`" ++ mark.render ++ "`"
  | keyword word => "`" ++ word.render ++ "`"
  | identifier => "an identifier"
  | separator => "`;` or a newline"
  | condition => "a condition"
  | expression => "an expression"

inductive SyntaxFault where
  | invalidFloat (text : String)
  | invalidInteger (text : String)
  | unterminatedString
  | unexpectedChar (c : Char)
  | expected (what : Expectation) (found : TokenKind)
  | untypedParam (name : String)
  | stepOperands
  | noAssignment
  | noCondition
  | declarationCount (count : Nat)

def SyntaxFault.message : SyntaxFault → String
  | invalidFloat text => "invalid float literal `" ++ text ++ "`"
  | invalidInteger text => "invalid integer literal `" ++ text ++ "`"
  | unterminatedString => "unterminated string literal"
  | unexpectedChar c => "unexpected character `" ++ c.toString ++ "`"
  | expected what found => "expected " ++ what.describe ++ ", found " ++ found.describe
  | untypedParam name => "parameter `" ++ name ++ "` has no type"
  | stepOperands => "`++`/`--` takes one operand"
  | noAssignment => "expected an assignment"
  | noCondition => "missing condition"
  | declarationCount count => "expected one declaration, found " ++ toString count

structure SyntaxError where
  span : Span
  fault : SyntaxFault

def SyntaxError.render (e : SyntaxError) : String :=
  e.span.render ++ ": " ++ e.fault.message

end FieldAccess
