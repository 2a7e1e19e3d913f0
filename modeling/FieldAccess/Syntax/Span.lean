
namespace FieldAccess

-- A source position, counted from 1. Line and column 0 mark code that no source holds.
structure Span where
  line : Nat
  column : Nat
deriving DecidableEq, Repr, Inhabited

namespace Span

def nowhere : Span := ⟨0, 0⟩

def isNowhere (s : Span) : Bool :=
  s.line = 0 && s.column = 0

def advance (s : Span) (c : Char) : Span :=
  if c = '\n' then ⟨s.line + 1, 1⟩ else ⟨s.line, s.column + 1⟩

def advanceAll (s : Span) (text : List Char) : Span :=
  text.foldl advance s

def render (s : Span) : String :=
  toString s.line ++ ":" ++ toString s.column

end Span

end FieldAccess
