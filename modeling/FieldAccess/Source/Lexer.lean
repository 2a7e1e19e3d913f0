import FieldAccess.Decimal.Reader
import FieldAccess.Source.Token
import FieldAccess.Text.Alphabet

namespace FieldAccess

-- The first lexeme of a text. Blanks and comments have no token.
structure Lexeme (input : List Char) where
  token : Option TokenKind
  text : List Char
  rest : List Char
  text_ne_nil : text ≠ []
  append_eq : text ++ rest = input

namespace Lexeme

theorem length_rest_lt {input : List Char} (l : Lexeme input) : l.rest.length < input.length := by
  have := List.length_pos_iff.2 l.text_ne_nil
  have := congrArg List.length l.append_eq
  rw [List.length_append] at this
  omega

def isWordStart (c : Char) : Bool :=
  Text.isAlphabetic c || c = '_'

def isWordChar (c : Char) : Bool :=
  Text.isAlphanumeric c || c = '_'

def ofWhile (p : Char → Bool) (token : List Char → Option TokenKind) (c : Char) (rest : List Char) :
    Lexeme (c :: rest) where
  token := token (c :: rest.takeWhile p)
  text := c :: rest.takeWhile p
  rest := rest.dropWhile p
  text_ne_nil := by simp
  append_eq := by simp

def splitComment : List Char → List Char × List Char
  | '*' :: '/' :: rest => (['*', '/'], rest)
  | [] => ([], [])
  | c :: rest => (c :: (splitComment rest).1, (splitComment rest).2)

theorem splitComment_append (text : List Char) :
    (splitComment text).1 ++ (splitComment text).2 = text := by
  fun_induction splitComment text <;> simp_all

def blockComment (rest : List Char) : Lexeme ('/' :: '*' :: rest) where
  token := none
  text := '/' :: '*' :: (splitComment rest).1
  rest := (splitComment rest).2
  text_ne_nil := by simp
  append_eq := by simp [splitComment_append]

def wordToken (text : List Char) : TokenKind :=
  let word := String.ofList text
  match Keyword.ofString? word with
  | some keyword => .keyword keyword
  | none => .ident word

def unescape (c : Char) : Char :=
  if c = 'n' then '\n' else if c = 't' then '\t' else c

def stringBody : List Char → Option (List Char × List Char × List Char)
  | [] => none
  | '"' :: rest => some ([], ['"'], rest)
  | ['\\'] => none
  | '\\' :: c :: rest =>
    (stringBody rest).map fun (value, text, rest) => (unescape c :: value, '\\' :: c :: text, rest)
  | c :: rest =>
    if c = '\n' then none
    else (stringBody rest).map fun (value, text, rest) => (c :: value, c :: text, rest)

theorem append_of_stringBody {input value text rest : List Char}
    (h : stringBody input = some (value, text, rest)) : text ++ rest = input := by
  fun_induction stringBody input generalizing value text rest with
  | case1 => simp at h
  | case2 =>
    simp only [Option.some.injEq, Prod.mk.injEq] at h
    simp [← h.2.1, ← h.2.2]
  | case3 => simp at h
  | case4 c tail ih =>
    obtain ⟨⟨v, t, r⟩, body, eq⟩ := Option.map_eq_some_iff.1 h
    simp only [Prod.mk.injEq] at eq
    simp [← eq.2.1, ← eq.2.2, ih body]
  | case5 => simp at h
  | case6 c tail _ _ _ _ ih =>
    obtain ⟨⟨v, t, r⟩, body, eq⟩ := Option.map_eq_some_iff.1 h
    simp only [Prod.mk.injEq] at eq
    simp [← eq.2.1, ← eq.2.2, ih body]

def stringLiteral (rest : List Char) : Except SyntaxFault (Lexeme ('"' :: rest)) :=
  match h : stringBody rest with
  | none => .error .unterminatedString
  | some (value, text, rest) => .ok {
      token := some (.string (String.ofList value))
      text := '"' :: text
      rest := rest
      text_ne_nil := by simp
      append_eq := by simp [append_of_stringBody h] }

def isDigitOrLine (c : Char) : Bool :=
  c.isDigit || c = '_'

def fraction? : List Char → Option (List Char × List Char)
  | '.' :: d :: rest =>
    if d.isDigit then some ('.' :: d :: rest.takeWhile Char.isDigit, rest.dropWhile Char.isDigit)
    else none
  | _ => none

theorem append_of_fraction? {input text rest : List Char}
    (h : fraction? input = some (text, rest)) : text ++ rest = input := by
  unfold fraction? at h
  split at h
  · split at h
    · simp only [Option.some.injEq, Prod.mk.injEq] at h
      simp [← h.1, ← h.2]
    · simp at h
  · simp at h

def number (c : Char) (rest : List Char) : Except SyntaxFault (Lexeme (c :: rest)) :=
  let whole := c :: rest.takeWhile isDigitOrLine
  match h : fraction? (rest.dropWhile isDigitOrLine) with
  | some (fraction, tail) =>
    match Decimal.decimal? (whole ++ fraction) with
    | some value => .ok {
        token := some (.float value)
        text := whole ++ fraction
        rest := tail
        text_ne_nil := by simp [whole]
        append_eq := by simp [whole, append_of_fraction? h] }
    | none => .error (.invalidFloat (String.ofList (whole ++ fraction)))
  | none =>
    match Decimal.int64? (whole.filter (· ≠ '_')) with
    | some value => .ok (ofWhile isDigitOrLine (fun _ => some (.int value)) c rest)
    | none => .error (.invalidInteger (String.ofList whole))

theorem chars_ne_nil (mark : Symbol) : mark.chars ≠ [] := by
  cases mark <;> simp [Symbol.chars]

def symbol (c : Char) (rest : List Char) : Except SyntaxFault (Lexeme (c :: rest)) :=
  match h : Symbol.all.find? (·.chars.isPrefixOf (c :: rest)) with
  | some mark => .ok {
      token := some (.symbol mark)
      text := mark.chars
      rest := (c :: rest).drop mark.chars.length
      text_ne_nil := chars_ne_nil mark
      append_eq := by
        have := List.find?_some h
        rw [List.isPrefixOf_iff_prefix] at this
        exact List.prefix_iff_eq_append.1 this }
  | none => .error (.unexpectedChar c)

def first : (c : Char) → (rest : List Char) → Except SyntaxFault (Lexeme (c :: rest))
  | '/', '/' :: rest => .ok (ofWhile (· ≠ '\n') (fun _ => none) '/' ('/' :: rest))
  | '/', '*' :: rest => .ok (blockComment rest)
  | '"', rest => stringLiteral rest
  | c, rest =>
    if Text.isBlank c then .ok (ofWhile (fun _ => false) (fun _ => none) c rest)
    else if isWordStart c then .ok (ofWhile isWordChar (fun text => some (wordToken text)) c rest)
    else if c.isDigit then number c rest
    else symbol c rest

end Lexeme

namespace Token

-- A line break, also one inside a comment, ends the statement if the token before it can end one;
-- the semicolon then stands at that token's position.
def closing (pending : Option Span) (span : Span) : List Token :=
  if pending.isSome then [⟨.symbol .semicolon, span⟩] else []

-- The tokens of a text that starts at `span`. `pending` is the position of the token before it, if
-- that token can end a statement.
def scanFrom (span : Span) (pending : Option Span) :
    List Char → Except SyntaxError (List Token)
  | [] => .ok (closing pending span ++ [⟨.eof, span⟩])
  | c :: rest =>
    match Lexeme.first c rest with
    | .error fault => .error ⟨span, fault⟩
    | .ok lexeme =>
      have := lexeme.length_rest_lt
      let next := span.advanceAll lexeme.text
      match lexeme.token, pending with
      | some kind, _ => do
        let tokens ← scanFrom next (if kind.endsStatement then some span else none) lexeme.rest
        return ⟨kind, span⟩ :: tokens
      | none, some last =>
        if lexeme.text.contains '\n' then do
          let tokens ← scanFrom next none lexeme.rest
          return ⟨.symbol .semicolon, last⟩ :: tokens
        else scanFrom next pending lexeme.rest
      | none, none => scanFrom next none lexeme.rest
termination_by text => text.length
decreasing_by all_goals exact lexeme.length_rest_lt

def scan (source : String) : Except SyntaxError (List Token) :=
  scanFrom ⟨1, 1⟩ none source.toList

end Token

end FieldAccess
