import FieldAccess.Proofs.LetterForms
import FieldAccess.Source.Lexer
import Mathlib.Data.List.TakeWhile

namespace FieldAccess

-- Read alone, the text is a single identifier.
def IsIdentifier (x : String) : Prop :=
  ∃ tokens, Token.scan x = .ok tokens ∧
    tokens.map (·.kind) = [.ident x, .symbol .semicolon, .eof]

namespace Lexeme

structure IsWord (x : String) : Prop where
  start : ∃ c ∈ x.toList.head?, isWordStart c = true
  chars : ∀ c ∈ x.toList, isWordChar c = true
  other : Keyword.ofString? x = none

instance {x : String} : Decidable (IsWord x) :=
  decidable_of_iff (x.toList.head?.any isWordStart = true ∧ x.toList.all isWordChar = true ∧
      Keyword.ofString? x = none)
    ⟨fun ⟨start, chars, other⟩ =>
        ⟨(Option.any_eq_true ..).1 start, List.all_eq_true.1 chars, other⟩,
      fun h => ⟨(Option.any_eq_true ..).2 h.start, List.all_eq_true.2 h.chars, h.other⟩⟩

theorem isWordChar_of_start {c : Char} (h : isWordStart c = true) : isWordChar c = true := by
  unfold isWordStart at h
  unfold isWordChar
  rw [Bool.or_eq_true] at h ⊢
  exact h.imp_left Text.isAlphanumeric_of_isAlphabetic

theorem ident_of_wordToken {text : List Char} {name : String} (h : wordToken text = .ident name) :
    name.toList = text ∧ Keyword.ofString? name = none := by
  unfold wordToken at h
  dsimp only at h
  split at h
  · cases h
  case h_2 other =>
    obtain rfl := TokenKind.ident.inj h
    exact ⟨String.toList_ofList, other⟩

theorem token_of_number {c : Char} {rest : List Char} {l : Lexeme (c :: rest)}
    (h : number c rest = .ok l) (name : String) : l.token ≠ some (.ident name) := by
  unfold number at h
  dsimp only at h
  split at h
  all_goals
    split at h
    · obtain rfl := Except.ok.inj h
      nofun
    · cases h

theorem token_of_symbol {c : Char} {rest : List Char} {l : Lexeme (c :: rest)}
    (h : symbol c rest = .ok l) (name : String) : l.token ≠ some (.ident name) := by
  unfold symbol at h
  split at h
  · obtain rfl := Except.ok.inj h
    nofun
  · cases h

theorem ident_of_first {c : Char} {rest : List Char} {l : Lexeme (c :: rest)} {name : String}
    (h : first c rest = .ok l) (token : l.token = some (.ident name)) :
    IsWord name := by
  unfold first at h
  split at h
  · obtain rfl := Except.ok.inj h
    cases token
  · obtain rfl := Except.ok.inj h
    cases token
  · unfold stringLiteral at h
    split at h
    · cases h
    · obtain rfl := Except.ok.inj h
      cases token
  · split at h
    · obtain rfl := Except.ok.inj h
      cases token
    · split at h
      case isTrue start =>
        obtain rfl := Except.ok.inj h
        obtain ⟨text, other⟩ := ident_of_wordToken (Option.some.inj token)
        refine ⟨?_, ?_, other⟩
        all_goals rw [text]
        · exact ⟨c, rfl, start⟩
        · exact List.forall_mem_cons.2
            ⟨isWordChar_of_start start, fun d hd => List.all_eq_true.1 List.all_takeWhile d hd⟩
      case isFalse =>
        split at h
        case isTrue => exact absurd token (token_of_number h name)
        case isFalse => exact absurd token (token_of_symbol h name)

end Lexeme

namespace Token

theorem kind_closing {pending : Option Span} {span : Span} {t : Token}
    (h : t ∈ closing pending span) : t.kind = .symbol .semicolon := by
  unfold closing at h
  split at h
  · rw [List.mem_singleton.1 h]
  · cases h

-- By induction on the text: the rest of each lexeme is shorter.
theorem ident_of_scanFrom {span : Span} {pending : Option Span} {text : List Char}
    {tokens : List Token} (h : scanFrom span pending text = .ok tokens) {t : Token} (mem : t ∈ tokens)
    {name : String} (kind : t.kind = .ident name) : Lexeme.IsWord name := by
  fun_induction scanFrom span pending text generalizing tokens with
  | case1 =>
    obtain rfl := Except.ok.inj h
    rcases List.mem_append.1 mem with mem | mem
    · rw [kind_closing mem] at kind
      cases kind
    · rw [List.mem_singleton.1 mem] at kind
      cases kind
  | case2 => cases h
  | case3 _ _ _ _ _ first _ _ _ token =>
    rename_i ih
    obtain ⟨rest, scanned, h⟩ := ok_bind.1 h
    obtain rfl := ok_pure.1 h
    rcases List.mem_cons.1 mem with rfl | mem
    · exact Lexeme.ident_of_first first (token.trans (congrArg some kind))
    · exact ih scanned mem
  | case4 =>
    rename_i ih
    obtain ⟨rest, scanned, h⟩ := ok_bind.1 h
    obtain rfl := ok_pure.1 h
    rcases List.mem_cons.1 mem with rfl | mem
    · cases kind
    · exact ih scanned mem
  | case5 =>
    rename_i ih
    exact ih h mem
  | case6 =>
    rename_i ih
    exact ih h mem

end Token

namespace Text

-- No letter or numeral is a blank.
theorem isBlank_of_isAlphanumeric {c : Char} (h : isAlphanumeric c = true) : isBlank c = false := by
  by_cases ascii : c.toNat < 0x80
  · exact forall_ascii (P := fun c => isAlphanumeric c = true → isBlank c = false)
      (by decide) ascii h
  · have apart : ∀ r ∈ blankRanges.drop 2,
        apart r.1 r.2 alphabeticRanges = true ∧ apart r.1 r.2 numericRanges = true := by
      decide +kernel
    have basic : ∀ r ∈ blankRanges.take 2, r.2 < 0x80 := by decide
    rw [isBlank, Bool.eq_false_iff]
    intro blank
    obtain ⟨r, mem, le, ge⟩ := inRanges_iff.1 blank
    rw [← List.take_append_drop 2 blankRanges] at mem
    rcases List.mem_append.1 mem with mem | mem
    · have := basic r mem
      omega
    · obtain ⟨letters, numerals⟩ := apart r mem
      rw [isAlphanumeric, if_neg ascii, not_inRanges_of_apart letters le ge,
        not_inRanges_of_apart numerals le ge] at h
      cases h

end Text

namespace Lexeme

theorem not_blank_of_isWordChar {c : Char} (h : isWordChar c = true) : Text.isBlank c = false := by
  rw [isWordChar, Bool.or_eq_true, decide_eq_true_eq] at h
  rcases h with letter | rfl
  · exact Text.isBlank_of_isAlphanumeric letter
  · decide

theorem not_blank_of_start {c : Char} (h : isWordStart c = true) : Text.isBlank c = false :=
  not_blank_of_isWordChar (isWordChar_of_start h)

theorem first_of_start {c : Char} {rest : List Char} (h : isWordStart c = true) :
    first c rest = .ok (ofWhile isWordChar (fun text => some (wordToken text)) c rest) := by
  unfold first
  split
  · exact absurd h (by decide)
  · exact absurd h (by decide)
  · exact absurd h (by decide)
  · rw [if_neg, if_pos h]
    simp [not_blank_of_start h]

end Lexeme

theorem isIdentifier_of_isWord {x : String} (h : Lexeme.IsWord x) : IsIdentifier x := by
  obtain ⟨⟨c, hc, start⟩, chars, other⟩ := h
  cases is : x.toList with
  | nil =>
    rw [is] at hc
    cases hc
  | cons d rest =>
    rw [is] at hc chars
    obtain rfl := Option.some.inj hc
    have all : ∀ e ∈ rest, Lexeme.isWordChar e = true := (List.forall_mem_cons.1 chars).2
    have text : String.ofList (d :: rest) = x := by rw [← is, String.ofList_toList]
    have token : Lexeme.wordToken (d :: rest) = .ident x := by
      rw [Lexeme.wordToken]
      simp only [text, other]
    rw [IsIdentifier, Token.scan, is, Token.scanFrom, Lexeme.first_of_start start]
    simp only [Lexeme.ofWhile, List.takeWhile_eq_self_iff.2 all, List.dropWhile_eq_nil_iff.2 all, token,
      Token.scanFrom]
    exact ⟨_, rfl, rfl⟩

-- A text is an identifier exactly if it is a word.
theorem isIdentifier_iff {x : String} : IsIdentifier x ↔ Lexeme.IsWord x := by
  refine ⟨fun ⟨tokens, scanned, kinds⟩ => ?_, isIdentifier_of_isWord⟩
  cases tokens with
  | nil => cases kinds
  | cons t rest =>
    exact Token.ident_of_scanFrom scanned (List.mem_cons_self ..) (List.cons.inj kinds).1

instance {x : String} : Decidable (IsIdentifier x) :=
  decidable_of_iff _ isIdentifier_iff.symm

namespace Token

variable {text text' rest : List Char} {kinds kinds' : List TokenKind}

-- Whether a statement is open after tokens of these kinds.
def openAfter (isOpen : Bool) (kinds : List TokenKind) : Bool :=
  kinds.foldl (fun _ kind => kind.endsStatement) isOpen

-- Before `rest`, the text is read as tokens of these kinds.
def Reads (text : List Char) (kinds : List TokenKind) (rest : List Char) : Prop :=
  ∀ span pending, ∃ tokens span' pending', tokens.map (·.kind) = kinds ∧
    Option.isSome pending' = openAfter (Option.isSome pending) kinds ∧
    scanFrom span pending (text ++ rest) = (tokens ++ ·) <$> scanFrom span' pending' rest

namespace Reads

theorem append (h : Reads text kinds (text' ++ rest)) (h' : Reads text' kinds' rest) :
    Reads (text ++ text') (kinds ++ kinds') rest := by
  intro span pending
  obtain ⟨tokens, span₁, pending₁, kinds₁, open₁, scan₁⟩ := h span pending
  obtain ⟨tokens', span₂, pending₂, kinds₂, open₂, scan₂⟩ := h' span₁ pending₁
  refine ⟨tokens ++ tokens', span₂, pending₂, ?_, ?_, ?_⟩
  · rw [List.map_append, kinds₁, kinds₂]
  · rw [open₂, open₁, openAfter, openAfter, openAfter, List.foldl_append]
  · rw [List.append_assoc, scan₁, scan₂, ← comp_map]
    congr 1
    funext more
    exact (List.append_assoc ..).symm

theorem cons {kind : TokenKind} (h : Reads text [kind] (text' ++ rest)) (h' : Reads text' kinds' rest) :
    Reads (text ++ text') (kind :: kinds') rest :=
  h.append h'

-- A lexeme is read as its token.
theorem of_first {c : Char} {rest : List Char} {l : Lexeme (c :: rest)} {kind : TokenKind}
    (first : Lexeme.first c rest = .ok l) (token : l.token = some kind) :
    Reads l.text [kind] l.rest := by
  intro span pending
  refine ⟨[⟨kind, span⟩], span.advanceAll l.text, if kind.endsStatement then some span else none,
    rfl, ?_, ?_⟩
  · change _ = kind.endsStatement
    cases kind.endsStatement <;> rfl
  · rw [l.append_eq, scanFrom]
    simp only [first, token]
    rfl

theorem blank : Reads [' '] [] rest := by
  intro span pending
  have first : Lexeme.first ' ' rest =
      .ok (Lexeme.ofWhile (fun _ => false) (fun _ => none) ' ' rest) := rfl
  have all : rest.takeWhile (fun _ => false) = [] ∧ rest.dropWhile (fun _ => false) = rest := by
    cases rest <;> exact ⟨rfl, rfl⟩
  refine ⟨[], span.advanceAll [' '], pending, rfl, rfl, ?_⟩
  rw [List.singleton_append, scanFrom]
  simp only [first, Lexeme.ofWhile, all]
  cases pending <;> exact (id_map _).symm

end Reads

theorem scan_of_reads {source : String} (h : Reads source.toList kinds [])
    (isOpen : openAfter false kinds = true) :
    ∃ tokens, scan source = .ok tokens ∧
      tokens.map (·.kind) = kinds ++ [.symbol .semicolon, .eof] := by
  obtain ⟨tokens, span, pending, same, stays, scanned⟩ := h ⟨1, 1⟩ none
  rw [List.append_nil] at scanned
  have pending' : pending.isSome = true := stays.trans isOpen
  refine ⟨tokens ++ (closing pending span ++ [⟨.eof, span⟩]), ?_, ?_⟩
  · rw [scan, scanned, scanFrom]
    rfl
  · rw [List.map_append, same, closing, if_pos pending']
    rfl

end Token

end FieldAccess
