import FieldAccess.Proofs.IdentifierTokens

namespace FieldAccess

namespace Symbol

theorem mem_all (mark : Symbol) : mark ∈ all := by
  cases mark <;> decide

-- Whether a symbol before the character may be part of a longer one, or of a comment.
def grows (mark : Symbol) (c : Char) : Bool :=
  all.any (fun longer => (mark.chars ++ [c]).isPrefixOf longer.chars) ||
    mark = slash && (c = '/' || c = '*')

-- The characters that a symbol may go on with.
def continuations : List Char :=
  ['=', '<', '>', '&', '|', '^', '+', '-', '.', '/', '*']

theorem mem_tail_of_longer {mark longer : Symbol} {c : Char}
    (h : mark.chars ++ [c] <+: longer.chars) : c ∈ longer.chars.tail := by
  obtain ⟨rest, e⟩ := h
  obtain ⟨a, as, chars⟩ := List.exists_cons_of_ne_nil (Lexeme.chars_ne_nil mark)
  rw [← e, chars]
  simp

theorem grows_eq_false {mark : Symbol} {c : Char} (h : c ∉ continuations) :
    mark.grows c = false := by
  have tails : ∀ longer ∈ all, longer.chars.tail ⊆ continuations := by decide
  have longer : all.any (fun longer => (mark.chars ++ [c]).isPrefixOf longer.chars) = false := by
    rw [List.any_eq_false]
    intro longer mem start
    exact h (tails longer mem (mem_tail_of_longer (List.isPrefixOf_iff_prefix.1 start)))
  have comment : c ≠ '/' ∧ c ≠ '*' :=
    ⟨fun same => h (same ▸ by decide), fun same => h (same ▸ by decide)⟩
  simp [grows, longer, comment]

def brackets : List Symbol :=
  [lparen, rparen, lbracket, rbracket, comma]

-- A symbol that starts no longer one does not go on.
theorem grows_alone {mark : Symbol} (other : mark ≠ slash) (alone : ∀ longer ∈ all,
      mark.chars.isPrefixOf longer.chars = true → mark.chars = longer.chars) (c : Char) :
    mark.grows c = false := by
  have longer : all.any (fun longer => (mark.chars ++ [c]).isPrefixOf longer.chars) = false := by
    rw [List.any_eq_false]
    intro longer mem start
    have start := List.isPrefixOf_iff_prefix.1 start
    have same := alone longer mem
      (List.isPrefixOf_iff_prefix.2 ((List.prefix_append ..).trans start))
    have short := start.length_le
    rw [← same, List.length_append] at short
    exact Nat.not_succ_le_self _ short
  simp [grows, longer, other]

theorem grows_bracket {mark : Symbol} (h : mark ∈ brackets) (c : Char) : mark.grows c = false := by
  have alone : ∀ mark ∈ brackets, mark ≠ slash ∧ ∀ longer ∈ all,
      mark.chars.isPrefixOf longer.chars = true → mark.chars = longer.chars := by decide
  exact grows_alone (alone mark h).1 (alone mark h).2 c

theorem find?_all (mark : Symbol) :
    all.find? (·.chars.isPrefixOf mark.chars) = some mark := by
  cases mark <;> rfl

-- The symbol at the front of a text is no longer than it was printed.
theorem find?_all_append {mark : Symbol} {rest : List Char}
    (alone : ∀ c ∈ rest.head?, mark.grows c = false) :
    all.find? (·.chars.isPrefixOf (mark.chars ++ rest)) = some mark := by
  have same (other : Symbol) :
      other.chars.isPrefixOf (mark.chars ++ rest) = other.chars.isPrefixOf mark.chars := by
    rw [Bool.eq_iff_iff, List.isPrefixOf_iff_prefix, List.isPrefixOf_iff_prefix]
    refine ⟨fun start => ?_, fun start => start.trans (List.prefix_append ..)⟩
    rcases List.prefix_or_prefix_of_prefix start (List.prefix_append mark.chars rest) with
      short | ⟨more, long⟩
    · exact short
    · rw [← long] at start ⊢
      cases more with
      | nil => simp
      | cons c more =>
        obtain ⟨rest', e⟩ := (List.prefix_append_right_inj _).1 start
        have stands := alone c (by simp [← e])
        have grown : mark.grows c = true := by
          rw [grows, Bool.or_eq_true]
          refine .inl (List.any_eq_true.2 ⟨other, other.mem_all, List.isPrefixOf_iff_prefix.2 ?_⟩)
          exact ⟨more, by simp [← long]⟩
        simp [stands] at grown
  simp only [same]
  exact find?_all mark

end Symbol

namespace Lexeme

-- How symbols start.
theorem head_chars {mark : Symbol} {c : Char} (h : c ∈ mark.chars.head?) :
    c ≠ '"' ∧ Text.isBlank c = false ∧ isWordStart c = false ∧ c.isDigit = false := by
  have all : ∀ mark ∈ Symbol.all, mark.chars.head?.all (fun c =>
      c ≠ '"' ∧ Text.isBlank c = false ∧ isWordStart c = false ∧ c.isDigit = false) := by
    decide
  exact of_decide_eq_true ((Option.all_eq_true _ _).1 (all mark mark.mem_all) c h)

-- A symbol starts no comment.
theorem not_comment {mark : Symbol} {cs rest rest' : List Char} {d : Char}
    (chars : mark.chars = '/' :: cs) (alone : ∀ c ∈ rest.head?, mark.grows c = false)
    (same : cs ++ rest = d :: rest') : d ≠ '/' ∧ d ≠ '*' := by
  have all : ∀ mark ∈ Symbol.all, mark.chars.head? = some '/' →
      mark = .slash ∨ mark = .divAssign := by decide
  rcases all mark mark.mem_all (by rw [chars]; rfl) with rfl | rfl
  · obtain rfl : [] = cs := (List.cons.inj chars).2
    have stands := alone d (by rw [← List.nil_append rest, same]; rfl)
    constructor <;> rintro rfl <;> exact absurd stands (by decide)
  · obtain rfl : ['='] = cs := (List.cons.inj chars).2
    obtain rfl : '=' = d := (List.cons.inj same).1
    decide

theorem first_of_symbol {mark : Symbol} {c : Char} {cs rest : List Char}
    (chars : mark.chars = c :: cs) (alone : ∀ c ∈ rest.head?, mark.grows c = false) :
    first c (cs ++ rest) = symbol c (cs ++ rest) := by
  obtain ⟨quote, blank, start, digit⟩ : c ≠ '"' ∧ Text.isBlank c = false ∧ isWordStart c = false ∧
      c.isDigit = false := head_chars (chars ▸ rfl : c ∈ mark.chars.head?)
  generalize same : cs ++ rest = text
  unfold first
  split
  · exact absurd rfl (not_comment chars alone same).1
  · exact absurd rfl (not_comment chars alone same).2
  · exact absurd rfl quote
  · simp [blank, start, digit]

theorem of_digit {c : Char} (digit : c.isDigit = true) :
    Text.isBlank c = false ∧ isWordStart c = false ∧ c ∉ Symbol.continuations :=
  have ascii : c.toNat < 0x80 := Nat.lt_of_le_of_lt (Text.toNat_le_of_isDigit digit) (by decide)
  Text.forall_ascii (P := fun c => c.isDigit = true →
    Text.isBlank c = false ∧ isWordStart c = false ∧ c ∉ Symbol.continuations)
    (by decide) ascii digit

theorem not_digit_of_start {c : Char} (start : isWordStart c = true) : c.isDigit = false := by
  rw [Bool.eq_false_iff]
  intro digit
  exact Bool.eq_false_iff.1 (of_digit digit).2.1 start

theorem isWordChar_of_digitOrLine {c : Char} (h : isDigitOrLine c = true) :
    isWordChar c = true := by
  rw [isDigitOrLine, Bool.or_eq_true] at h
  rcases h with digit | line
  · have ascii : c.toNat < 0x80 := Nat.lt_of_le_of_lt (Text.toNat_le_of_isDigit digit) (by decide)
    exact Text.forall_ascii (P := fun c => c.isDigit = true → isWordChar c = true)
      (by decide) ascii digit
  · rw [isWordChar, line, Bool.or_true]

-- No symbol goes on with a letter.
theorem not_continuation_of_start {c : Char} (start : isWordStart c = true) :
    c ∉ Symbol.continuations := by
  have none : Symbol.continuations.any isWordStart = false := by decide
  exact fun mem => List.any_eq_false.1 none c mem start

theorem first_of_digit {c : Char} (digit : c.isDigit = true) (text : List Char) :
    first c text = number c text := by
  have other := of_digit digit
  unfold first
  split
  · exact absurd digit (by decide)
  · exact absurd digit (by decide)
  · exact absurd digit (by decide)
  · simp [other, digit]

end Lexeme

namespace Token

variable {rest : List Char}

theorem reads_symbol {mark : Symbol} (alone : ∀ c ∈ rest.head?, mark.grows c = false) :
    Reads mark.chars [.symbol mark] rest := by
  obtain ⟨c, cs, chars⟩ := List.exists_cons_of_ne_nil (Lexeme.chars_ne_nil mark)
  have first := Lexeme.first_of_symbol chars alone
  have found := Symbol.find?_all_append alone
  rw [chars, List.cons_append] at found
  obtain ⟨l, read, token, text, left⟩ : ∃ l, Lexeme.first c (cs ++ rest) = .ok l ∧
      l.token = some (.symbol mark) ∧ l.text = mark.chars ∧ l.rest = rest := by
    rw [first]
    unfold Lexeme.symbol
    split
    case h_1 other h =>
      obtain rfl := Option.some.inj (h.symm.trans found)
      refine ⟨_, rfl, rfl, rfl, ?_⟩
      change (c :: cs ++ rest).drop other.chars.length = rest
      rw [chars, List.drop_left]
    case h_2 none => simp [found] at none
  have reads := Reads.of_first read token
  rwa [text, left] at reads

-- The symbols that are part of no longer one.
theorem reads_bracket (mark : Symbol) (h : mark ∈ Symbol.brackets) :
    Reads mark.chars [.symbol mark] rest :=
  reads_symbol fun c _ => Symbol.grows_bracket h c

-- A lexeme of characters with a property ends before the first that lacks it.
theorem takeWhile_append {p : Char → Bool} {cs : List Char} (all : ∀ c ∈ cs, p c = true)
    (ends : ∀ c ∈ rest.head?, p c = false) :
    (cs ++ rest).takeWhile p = cs ∧ (cs ++ rest).dropWhile p = rest := by
  have none : rest.takeWhile p = [] ∧ rest.dropWhile p = rest := by
    cases rest with
    | nil => exact ⟨rfl, rfl⟩
    | cons c more =>
      have other : p c = false := ends c rfl
      simp [other]
  rw [List.takeWhile_append_of_pos all, List.dropWhile_append_of_pos all, none.1, none.2]
  exact ⟨List.append_nil _, rfl⟩

theorem reads_wordToken {x : String} (start : ∃ c ∈ x.toList.head?, Lexeme.isWordStart c = true)
    (chars : ∀ c ∈ x.toList, Lexeme.isWordChar c = true)
    (ends : ∀ c ∈ rest.head?, Lexeme.isWordChar c = false) :
    Reads x.toList [Lexeme.wordToken x.toList] rest := by
  obtain ⟨c, hc, start⟩ := start
  obtain ⟨cs, is⟩ := List.head?_eq_some_iff.1 hc
  rw [is] at chars ⊢
  obtain ⟨taken, left⟩ := takeWhile_append (List.forall_mem_cons.1 chars).2 ends
  have token : some (Lexeme.wordToken (c :: (cs ++ rest).takeWhile Lexeme.isWordChar)) =
      some (Lexeme.wordToken (c :: cs)) := by rw [taken]
  have reads := Reads.of_first (Lexeme.first_of_start start) token
  simpa only [Lexeme.ofWhile, taken, left] using reads

theorem reads_word {x : String} (word : Lexeme.IsWord x)
    (ends : ∀ c ∈ rest.head?, Lexeme.isWordChar c = false) :
    Reads x.toList [.ident x] rest := by
  have token : Lexeme.wordToken x.toList = .ident x := by
    rw [Lexeme.wordToken, String.ofList_toList]
    simp only [word.other]
  exact token ▸ reads_wordToken word.start word.chars ends

theorem digitsValue_eq (value : Nat) (text : List Char) :
    Decimal.digitsValue value text = Nat.ofDigitChars 10 text value := by
  induction text generalizing value with
  | nil => rfl
  | cons c rest ih => exact ih _

theorem integer?_toDigits (n : Nat) : Decimal.integer? (Nat.toDigits 10 n) = some (n : Int) := by
  have digit : ∀ c ∈ Nat.toDigits 10 n, c.isDigit = true := fun c hc =>
    Nat.isDigit_of_mem_toDigits (by decide) (by decide) hc
  have row : Decimal.isDigits (Nat.toDigits 10 n) = true := by
    rw [Decimal.isDigits, Bool.and_eq_true, Bool.not_eq_true', List.isEmpty_eq_false_iff]
    exact ⟨Nat.toDigits_ne_nil, List.all_eq_true.2 digit⟩
  have unsigned : Decimal.splitSign (Nat.toDigits 10 n) = (false, Nat.toDigits 10 n) := by
    unfold Decimal.splitSign
    split
    case h_1 same => exact absurd (digit '-' (same ▸ List.mem_cons_self ..)) (by decide)
    case h_2 same => exact absurd (digit '+' (same ▸ List.mem_cons_self ..)) (by decide)
    case h_3 => rfl
  simp [Decimal.integer?, unsigned, Decimal.natural?, row, digitsValue_eq]

-- What is printed for an integer without a sign is read as that integer.
theorem int64?_toDigits {value : Int64} (positive : 0 ≤ value.toInt) :
    Decimal.int64? (Nat.toDigits 10 value.toInt.toNat) = some value := by
  rw [Decimal.int64?, integer?_toDigits, Int.toNat_of_nonneg positive, Option.bind_some,
    if_pos ⟨Int64.minValue_le_toInt value, Int64.toInt_le value⟩, Int64.ofInt_toInt]

theorem toList_toString_toInt {value : Int64} (positive : 0 ≤ value.toInt) :
    (toString value.toInt).toList = Nat.toDigits 10 value.toInt.toNat := by
  obtain ⟨n, is⟩ := Int.eq_ofNat_of_zero_le positive
  rw [is, Int.toNat_natCast, show toString (n : Int) = toString n from rfl,
    Nat.toString_eq_ofList_toDigits, String.toList_ofList]

theorem reads_number {value : Int64} (positive : 0 ≤ value.toInt)
    (ends : ∀ c ∈ rest.head?, Lexeme.isDigitOrLine c = false)
    (whole : Lexeme.fraction? rest = none) :
    Reads (toString value.toInt).toList [.int value] rest := by
  have digit : ∀ c ∈ Nat.toDigits 10 value.toInt.toNat, c.isDigit = true := fun c hc =>
    Nat.isDigit_of_mem_toDigits (by decide) (by decide) hc
  have back := int64?_toDigits positive
  rw [toList_toString_toInt positive]
  obtain ⟨c, cs, is⟩ := List.exists_cons_of_ne_nil
    (Nat.toDigits_ne_nil (n := value.toInt.toNat) (b := 10))
  rw [is] at digit back ⊢
  have row : ∀ d ∈ cs, Lexeme.isDigitOrLine d = true := fun d hd => by
    simp [Lexeme.isDigitOrLine, digit d (List.mem_cons_of_mem _ hd)]
  obtain ⟨taken, left⟩ := takeWhile_append row ends
  have plain : (c :: cs).filter (· ≠ '_') = c :: cs := by
    refine List.filter_eq_self.2 fun d hd => decide_eq_true ?_
    rintro rfl
    exact absurd (digit _ hd) (by decide)
  have first : Lexeme.first c (cs ++ rest) = .ok
      (Lexeme.ofWhile Lexeme.isDigitOrLine (fun _ => some (.int value)) c (cs ++ rest)) := by
    rw [Lexeme.first_of_digit (digit c (List.mem_cons_self ..))]
    unfold Lexeme.number
    dsimp only
    split
    case h_1 fraction =>
      rw [left, whole] at fraction
      cases fraction
    case h_2 => rw [taken, plain, back]
  have reads := Reads.of_first first rfl
  simpa only [Lexeme.ofWhile, taken, left] using reads

-- A text that the last token of an expression does not go on with.
structure Separates (rest : List Char) : Prop where
  word : ∀ c ∈ rest.head?, Lexeme.isWordChar c = false
  point : Lexeme.fraction? rest = none

theorem Separates.digit (h : Separates rest) :
    ∀ c ∈ rest.head?, Lexeme.isDigitOrLine c = false := by
  intro c hc
  have other := h.word c hc
  rw [Bool.eq_false_iff] at other ⊢
  exact fun digit => other (Lexeme.isWordChar_of_digitOrLine digit)

theorem separates_nil : Separates [] :=
  ⟨nofun, rfl⟩

theorem separates_cons {c : Char} (h : Lexeme.isWordChar c = false) (other : c ≠ '.') :
    Separates (c :: rest) where
  word d hd := Option.some.inj hd ▸ h
  point := by
    unfold Lexeme.fraction?
    split
    case h_1 same => exact absurd (List.cons.inj same).1 other
    case h_2 => rfl

theorem separates_bracket (mark : Symbol) (h : mark ∈ Symbol.brackets) :
    Separates (mark.chars ++ rest) := by
  have all : ∀ mark ∈ Symbol.brackets, mark.chars.head?.all (fun c =>
      Lexeme.isWordChar c = false ∧ c ≠ '.') := by decide
  obtain ⟨c, cs, chars⟩ := List.exists_cons_of_ne_nil (Lexeme.chars_ne_nil mark)
  have head : c ∈ mark.chars.head? := chars ▸ rfl
  obtain ⟨other, point⟩ := of_decide_eq_true ((Option.all_eq_true _ _).1 (all mark h) c head)
  rw [chars]
  exact separates_cons other point

-- The point of a selector is none of a number.
theorem separates_member {x : String} (word : Lexeme.IsWord x) :
    Separates ('.' :: (x.toList ++ rest)) where
  word d hd := Option.some.inj hd ▸ by decide
  point := by
    obtain ⟨c, hc, start⟩ := word.start
    obtain ⟨cs, is⟩ := List.head?_eq_some_iff.1 hc
    rw [is, List.cons_append, Lexeme.fraction?, Lexeme.not_digit_of_start start]
    rfl

theorem openAfter_append (isOpen : Bool) (kinds kinds' : List TokenKind) :
    openAfter isOpen (kinds ++ kinds') = openAfter (openAfter isOpen kinds) kinds' :=
  List.foldl_append

theorem openAfter_concat (isOpen : Bool) (kinds : List TokenKind) (kind : TokenKind) :
    openAfter isOpen (kinds ++ [kind]) = kind.endsStatement :=
  openAfter_append ..

theorem openAfter_cons (isOpen : Bool) (kind : TokenKind) (kinds : List TokenKind) :
    openAfter isOpen (kind :: kinds) = openAfter kind.endsStatement kinds :=
  rfl

-- A text between brackets.
theorem reads_between {text : List Char} {kinds : List TokenKind} (opening closing : Symbol)
    (opens : opening ∈ Symbol.brackets) (closes : closing ∈ Symbol.brackets)
    (h : ∀ {rest}, Separates rest → Reads text kinds rest) :
    Reads (opening.chars ++ (text ++ closing.chars))
      (.symbol opening :: (kinds ++ [.symbol closing])) rest :=
  (reads_bracket opening opens).cons
    ((h (separates_bracket closing closes)).append (reads_bracket closing closes))

theorem Reads.nil : Reads [] [] rest := fun span pending =>
  ⟨[], span, pending, rfl, rfl, (id_map _).symm⟩

theorem Reads.afterBlank {text : List Char} {kinds : List TokenKind} (h : Reads text kinds rest) :
    Reads (" ".toList ++ text) kinds rest :=
  Reads.blank.append h

end Token

end FieldAccess
