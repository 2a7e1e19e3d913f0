import FieldAccess.Proofs.PrintedExpressions
import FieldAccess.Proofs.TypeTexts

namespace FieldAccess

namespace TypeExpr

-- An identifier, or two with a point between them.
def IsPlainName (name : String) : Prop :=
  IsIdentifier name ∨
    ∃ package member, IsIdentifier package ∧ IsIdentifier member ∧ name = package ++ "." ++ member

-- Every name in the type is plain.
def HasPlainNames : TypeExpr → Prop
  | named name => IsPlainName name
  | pointer inner | slice inner | approx inner => inner.HasPlainNames
  | map key value => key.HasPlainNames ∧ value.HasPlainNames

theorem isNameChar_of_isWordChar {c : Char} (h : Lexeme.isWordChar c = true) :
    isNameChar c = true := by
  rw [isNameChar, Bool.or_eq_true]
  exact .inl h

theorem ne_point_of_isWordChar {c : Char} (h : Lexeme.isWordChar c = true) : c ≠ '.' := by
  rintro rfl
  exact absurd h (by decide)

-- Characters other than points do not matter.
theorem hasStrayPoint_go_append {before : Char} {cs rest : List Char} (other : before ≠ '.')
    (h : ∀ c ∈ cs, c ≠ '.') :
    ∃ last, last ≠ '.' ∧ hasStrayPoint.go before (cs ++ rest) = hasStrayPoint.go last rest := by
  induction cs generalizing before with
  | nil => exact ⟨before, other, rfl⟩
  | cons c cs ih =>
    obtain ⟨first, h⟩ := List.forall_mem_cons.1 h
    obtain ⟨last, ne, same⟩ := ih first h
    refine ⟨last, ne, ?_⟩
    rw [List.cons_append, hasStrayPoint.go, same, decide_eq_false other, Bool.false_and,
      Bool.false_or]

theorem hasStrayPoint_cons {c : Char} (h : c ≠ '.') (rest : List Char) :
    hasStrayPoint (c :: rest) = hasStrayPoint.go c rest := by
  unfold hasStrayPoint
  split
  case h_1 none => cases none
  case h_2 point => exact absurd (List.cons.inj point).1 h
  case h_3 same =>
    obtain ⟨rfl, rfl⟩ := List.cons.inj same
    rfl

-- A word and what follows it have the stray points of what follows.
theorem hasStrayPoint_word {x : String} (h : Lexeme.IsWord x) (rest : List Char) :
    ∃ last, last ≠ '.' ∧ hasStrayPoint (x.toList ++ rest) = hasStrayPoint.go last rest := by
  obtain ⟨c, hc, -⟩ := h.start
  obtain ⟨cs, is⟩ := List.head?_eq_some_iff.1 hc
  have plain : ∀ d ∈ c :: cs, d ≠ '.' := fun d hd => ne_point_of_isWordChar (h.chars d (is ▸ hd))
  obtain ⟨first, plain⟩ := List.forall_mem_cons.1 plain
  obtain ⟨last, ne, same⟩ := @hasStrayPoint_go_append c cs rest first plain
  exact ⟨last, ne, by rw [is, List.cons_append, hasStrayPoint_cons first, same]⟩

theorem hasStrayPoint_eq_false {x : String} (h : Lexeme.IsWord x) :
    hasStrayPoint x.toList = false := by
  obtain ⟨last, ne, same⟩ := hasStrayPoint_word h []
  rw [← List.append_nil x.toList, same, hasStrayPoint.go, decide_eq_false ne]

theorem checkName_eq_ok {name : String} (start : ∃ c ∈ name.toList.head?, Lexeme.isWordStart c = true)
    (points : hasStrayPoint name.toList = false) : checkName name.toList = .ok (named name) := by
  obtain ⟨c, hc, start⟩ := start
  have digit : name.toList.head?.any Char.isDigit = false := by
    rw [Option.mem_def.1 hc, Option.any_some, Lexeme.not_digit_of_start start]
  obtain ⟨cs, is⟩ := List.head?_eq_some_iff.1 hc
  rw [checkName, if_neg (by simp [is]), if_neg (by simp [points]), if_neg (by simp [digit]),
    String.ofList_toList]
  rfl

theorem isName_of_isPlainName {name : String} (h : IsPlainName name) : IsName name := by
  rcases h with word | ⟨package, member, word, word', rfl⟩
  case inl =>
    have word := isIdentifier_iff.1 word
    exact ⟨fun c hc => isNameChar_of_isWordChar (word.chars c hc),
      checkName_eq_ok word.start (hasStrayPoint_eq_false word)⟩
  case inr =>
    have word := isIdentifier_iff.1 word
    have word' := isIdentifier_iff.1 word'
    have chars : (package ++ "." ++ member).toList = package.toList ++ '.' :: member.toList := by
      simp
    obtain ⟨c, hc, start⟩ := word'.start
    obtain ⟨cs, is⟩ := List.head?_eq_some_iff.1 hc
    have first := ne_point_of_isWordChar (Lexeme.isWordChar_of_start start)
    refine ⟨?_, checkName_eq_ok ?_ ?_⟩
    case refine_1 =>
      intro d hd
      rw [chars, List.mem_append, List.mem_cons] at hd
      rcases hd with hd | rfl | hd
      · exact isNameChar_of_isWordChar (word.chars d hd)
      · decide
      · exact isNameChar_of_isWordChar (word'.chars d hd)
    case refine_2 =>
      obtain ⟨d, hd, start⟩ := word.start
      exact ⟨d, by rw [chars, List.head?_append, Option.mem_def.1 hd]; rfl, start⟩
    case refine_3 =>
      obtain ⟨last, ne, same⟩ := hasStrayPoint_word word ('.' :: member.toList)
      have whole := hasStrayPoint_eq_false word'
      rw [is] at same whole
      rw [chars, is, same, hasStrayPoint.go, decide_eq_false ne, Bool.false_and, Bool.false_or,
        hasStrayPoint.go, decide_eq_false first, Bool.and_false, Bool.false_or,
        ← hasStrayPoint_cons first, whole]

theorem readable_of_hasPlainNames {t : TypeExpr} (h : t.HasPlainNames) : t.Readable := by
  induction t with
  | named name => exact isName_of_isPlainName h
  | pointer inner ih => exact ih h
  | slice element ih => exact ih h
  | approx inner ih => exact ih h
  | map key value ihKey ihValue => exact ⟨ihKey h.1, ihValue h.2⟩

-- The kinds of the tokens that a type is written with.
inductive Spelled : TypeExpr → List TokenKind → Prop
  | name {x : String} (word : Lexeme.IsWord x) : Spelled (named x) [.ident x]
  | member {x y : String} (word : Lexeme.IsWord x) (word' : Lexeme.IsWord y) :
    Spelled (named (x ++ "." ++ y)) [.ident x, .symbol .dot, .ident y]
  | pointer {t : TypeExpr} {kinds : List TokenKind} (h : Spelled t kinds) :
    Spelled (pointer t) (.symbol .star :: kinds)
  | approx {t : TypeExpr} {kinds : List TokenKind} (h : Spelled t kinds) :
    Spelled (approx t) (.symbol .tilde :: kinds)
  | slice {t : TypeExpr} {kinds : List TokenKind} (h : Spelled t kinds) :
    Spelled (slice t) (.symbol .lbracket :: .symbol .rbracket :: kinds)
  | map {key value : TypeExpr} {kinds kinds' : List TokenKind} (h : Spelled key kinds)
    (h' : Spelled value kinds') : Spelled (map key value)
      (.keyword .mapWord :: .symbol .lbracket :: (kinds ++ .symbol .rbracket :: kinds'))

theorem exists_spelled {t : TypeExpr} (h : t.HasPlainNames) : ∃ kinds, Spelled t kinds := by
  induction t with
  | named name =>
    rcases h with word | ⟨package, member, word, word', rfl⟩
    · exact ⟨_, .name (isIdentifier_iff.1 word)⟩
    · exact ⟨_, .member (isIdentifier_iff.1 word) (isIdentifier_iff.1 word')⟩
  | pointer inner ih => exact (ih h).imp' _ fun _ => .pointer
  | slice element ih => exact (ih h).imp' _ fun _ => .slice
  | approx inner ih => exact (ih h).imp' _ fun _ => .approx
  | map key value ihKey ihValue =>
    obtain ⟨kinds, spelled⟩ := ihKey h.1
    obtain ⟨kinds', spelled'⟩ := ihValue h.2
    exact ⟨_, spelled.map spelled'⟩

namespace Spelled

variable {t : TypeExpr} {kinds : List TokenKind}

-- A type ends with a name, so a statement may end behind it.
theorem openAfter (h : Spelled t kinds) (isOpen : Bool) : Token.openAfter isOpen kinds = true := by
  induction h generalizing isOpen with
  | name word => rfl
  | member word word' => rfl
  | pointer h ih => exact ih _
  | approx h ih => exact ih _
  | slice h ih => exact ih _
  | map h h' ih ih' =>
    rw [Token.openAfter_cons, Token.openAfter_cons, Token.openAfter_append, Token.openAfter_cons]
    exact ih' _

-- A star before a type is a token of its own.
theorem star_alone (h : Spelled t kinds) {rest : List Char} :
    ∀ c ∈ (t.render.toList ++ rest).head?, Symbol.star.grows c = false := by
  intro c hc
  have plain {x : String} (word : Lexeme.IsWord x) {rest : List Char}
      (hc : c ∈ (x.toList ++ rest).head?) : Symbol.star.grows c = false := by
    obtain ⟨d, hd, start⟩ := word.start
    rw [List.head?_append, Option.mem_def.1 hd] at hc
    obtain rfl := Option.some.inj hc
    exact Symbol.grows_eq_false (Lexeme.not_continuation_of_start start)
  cases h with
  | name word => exact plain word hc
  | member word word' =>
    rw [render, String.toList_append, String.toList_append, List.append_assoc,
      List.append_assoc] at hc
    exact plain word hc
  | pointer h =>
    obtain rfl : '*' = c := by simpa [render] using hc
    decide
  | approx h =>
    obtain rfl : '~' = c := by simpa [render] using hc
    decide
  | slice h =>
    obtain rfl : '[' = c := by simpa [render] using hc
    decide
  | map h h' =>
    obtain rfl : 'm' = c := by simpa [render] using hc
    decide

theorem reads_map {rest : List Char} (opens : rest.head? = some '[') :
    Token.Reads "map".toList [.keyword .mapWord] rest := by
  have chars : "map".toList.all Lexeme.isWordChar = true := by decide
  refine Token.reads_wordToken ⟨'m', rfl, by decide⟩ (List.all_eq_true.1 chars) fun c hc => ?_
  obtain rfl := Option.some.inj (opens.symm.trans hc)
  decide

theorem reads (h : Spelled t kinds) {rest : List Char}
    (ends : ∀ c ∈ rest.head?, Lexeme.isWordChar c = false) :
    Token.Reads t.render.toList kinds rest := by
  induction h generalizing rest with
  | name word => exact Token.reads_word word ends
  | @member x y word word' =>
    rw [render, String.toList_append, String.toList_append, List.append_assoc]
    have point : Token.Reads ".".toList [.symbol .dot] (y.toList ++ rest) := by
      refine Token.reads_symbol fun c hc => ?_
      obtain ⟨d, hd, start⟩ := word'.start
      rw [List.head?_append, Option.mem_def.1 hd] at hc
      obtain rfl := Option.some.inj hc
      exact Symbol.grows_eq_false (Lexeme.not_continuation_of_start start)
    refine (Token.reads_word word ?_).cons (point.cons (Token.reads_word word' ends))
    intro c hc
    obtain rfl : '.' = c := by simpa using hc
    decide
  | @pointer t _ h ih =>
    rw [render, String.toList_append]
    have star : Token.Reads "*".toList [.symbol .star] (t.render.toList ++ rest) :=
      Token.reads_symbol h.star_alone
    exact star.cons (ih ends)
  | @approx t _ h ih =>
    rw [render, String.toList_append]
    have tilde : Token.Reads "~".toList [.symbol .tilde] (t.render.toList ++ rest) :=
      Token.reads_symbol fun c _ => Symbol.grows_alone (by decide) (by decide) c
    exact tilde.cons (ih ends)
  | slice h ih =>
    rw [render, String.toList_append]
    have opening {rest : List Char} : Token.Reads ['['] [.symbol .lbracket] rest :=
      Token.reads_bracket .lbracket (by decide)
    have closing {rest : List Char} : Token.Reads [']'] [.symbol .rbracket] rest :=
      Token.reads_bracket .rbracket (by decide)
    exact opening.cons (closing.cons (ih ends))
  | map h h' ih ih' =>
    simp only [render, String.toList_append, List.append_assoc]
    have opening {rest : List Char} : Token.Reads ['['] [.symbol .lbracket] rest :=
      Token.reads_bracket .lbracket (by decide)
    have closing {rest : List Char} : Token.Reads [']'] [.symbol .rbracket] rest :=
      Token.reads_bracket .rbracket (by decide)
    exact (reads_map rfl).cons (opening.cons ((ih (by simp; decide)).append
      (closing.cons (ih' ends))))

-- What is read of these tokens is the type, unless a point comes next.
theorem yields (h : Spelled t kinds) (stop : Span) {ts : List Token} {more : List TokenKind}
    (same : ts.map (·.kind) = kinds ++ more) (ends : more.head? ≠ some (.symbol .dot)) :
    ∃ rest, Parser.Yields (Parser.typeExpr stop ts) t rest ∧ rest.map (·.kind) = more := by
  induction h generalizing ts more with
  | name word =>
    obtain ⟨span, rest, rfl, left⟩ := Token.exists_cons same
    refine ⟨rest, ?_, left⟩
    have noPoint (span' : Span) (member : String) (span'' : Span) (ts : List Token)
        (h : rest = ⟨.symbol .dot, span'⟩ :: ⟨.ident member, span''⟩ :: ts) : False := by
      have same : rest.map (·.kind) = more := left
      rw [← same, h] at ends
      exact ends rfl
    rw [Parser.typeExpr, Parser.typeName]
    · exact ⟨_, rfl⟩
    · exact noPoint
    all_goals simp
  | member word word' =>
    obtain ⟨span, ts₁, rfl, same₁⟩ := Token.exists_cons same
    obtain ⟨span', ts₂, rfl, same₂⟩ := Token.exists_cons same₁
    obtain ⟨span'', rest, rfl, left⟩ := Token.exists_cons same₂
    refine ⟨rest, ?_, left⟩
    rw [Parser.typeExpr]
    · exact ⟨_, rfl⟩
    all_goals simp
  | pointer h ih =>
    obtain ⟨span, ts₁, rfl, same₁⟩ := Token.exists_cons same
    obtain ⟨rest, read, left⟩ := ih same₁ ends
    refine ⟨rest, ?_, left⟩
    rw [Parser.typeExpr]
    exact read.bind fun _ => .pure _ rfl rfl
  | approx h ih =>
    obtain ⟨span, ts₁, rfl, same₁⟩ := Token.exists_cons same
    obtain ⟨rest, read, left⟩ := ih same₁ ends
    refine ⟨rest, ?_, left⟩
    rw [Parser.typeExpr]
    exact read.bind fun _ => .pure _ rfl rfl
  | slice h ih =>
    obtain ⟨span, ts₁, rfl, same₁⟩ := Token.exists_cons same
    obtain ⟨span', ts₂, rfl, same₂⟩ := Token.exists_cons same₁
    obtain ⟨rest, read, left⟩ := ih same₂ ends
    refine ⟨rest, ?_, left⟩
    rw [Parser.typeExpr]
    exact Parser.yields_symbol.bind fun _ => read.bind fun _ => .pure _ rfl rfl
  | map h h' ih ih' =>
    rw [List.cons_append, List.cons_append, List.append_assoc] at same
    obtain ⟨span, ts₁, rfl, same₁⟩ := Token.exists_cons same
    obtain ⟨span', ts₂, rfl, same₂⟩ := Token.exists_cons same₁
    obtain ⟨ts₃, readKey, same₃⟩ := ih same₂ (by simp)
    obtain ⟨span'', ts₄, rfl, same₄⟩ := Token.exists_cons same₃
    obtain ⟨rest, readValue, left⟩ := ih' same₄ ends
    refine ⟨rest, ?_, left⟩
    rw [Parser.typeExpr]
    exact Parser.yields_symbol.bind fun _ => readKey.bind fun _ => Parser.yields_symbol.bind fun _ =>
      readValue.bind fun _ => .pure _ rfl rfl

end Spelled

-- A text that is read as a type is the text of the type but for blanks, and the text of the type is
-- read as the type again. If the names are plain, so are the tokens of it.
theorem printed_type_read_back :
    (∀ text t, parse text = .ok t → parse t.render = .ok t ∧ marks text.toList = t.render.toList) ∧
      ∀ t, HasPlainNames t → parse t.render = .ok t ∧
        ∃ tokens, Token.scan t.render = .ok tokens ∧ ∀ stop, ∃ rest,
          Parser.Yields (Parser.typeExpr stop tokens) t rest ∧
            rest.map (·.kind) = [.symbol .semicolon, .eof] := by
  refine ⟨fun text t read => ⟨parse_render (readable_of_parse read), marks_of_parse read⟩, ?_⟩
  intro t plain
  obtain ⟨kinds, spelled⟩ := exists_spelled plain
  obtain ⟨tokens, scanned, same⟩ := Token.scan_of_reads (spelled.reads nofun) (spelled.openAfter _)
  exact ⟨parse_render (readable_of_hasPlainNames plain), tokens, scanned,
    fun stop => spelled.yields stop same (by simp)⟩

theorem printed_type_read_back_map :
    parse " map[ string ] []* types.DateTime" =
        .ok (map (named "string") (slice (pointer (named "types.DateTime")))) ∧
      marks " map[ string ] []* types.DateTime".toList =
        (map (named "string") (slice (pointer (named "types.DateTime")))).render.toList ∧
      ∃ tokens, Token.scan "map[string][]*types.DateTime" = .ok tokens ∧ ∃ rest,
        Parser.Yields (Parser.typeExpr .nowhere tokens)
          (map (named "string") (slice (pointer (named "types.DateTime")))) rest := by
  have read : parse " map[ string ] []* types.DateTime" =
      .ok (map (named "string") (slice (pointer (named "types.DateTime")))) := by decide +kernel
  have plain : HasPlainNames (map (named "string") (slice (pointer (named "types.DateTime")))) :=
    ⟨.inl (by decide),
      .inr ⟨"types", "DateTime", by decide, by decide, rfl⟩⟩
  obtain ⟨texts, tokens⟩ := printed_type_read_back
  obtain ⟨-, tokens, scanned, reads⟩ := tokens _ plain
  obtain ⟨rest, yields, -⟩ := reads .nowhere
  exact ⟨read, (texts _ _ read).2, tokens, scanned, rest, yields⟩

end TypeExpr

end FieldAccess
