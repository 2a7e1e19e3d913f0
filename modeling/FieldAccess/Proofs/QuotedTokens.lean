import FieldAccess.Proofs.IdentifierTokens
import FieldAccess.Source.Printer

namespace FieldAccess

namespace Text

-- A character that is read as it was before it was printed.
def IsKept (c : Char) : Prop :=
  isGraphic c = true ∨ c = '\n' ∨ c = '\t'

instance {c : Char} : Decidable (IsKept c) :=
  inferInstanceAs (Decidable (_ ∨ _))

-- What the printed form of a character is read as.
def reread (c : Char) : List Char :=
  if IsKept c then [c] else (quoteChar c).tail

-- A character that means itself in a string literal.
def IsPlain (c : Char) : Prop :=
  c ≠ '"' ∧ c ≠ '\\' ∧ c ≠ '\n'

theorem isPlain_of_mem_toDigits {n : Nat} {c : Char} (h : c ∈ Nat.toDigits 16 n) : IsPlain c := by
  have digit : ∀ d < 16, IsPlain (Nat.digitChar d) := by
    unfold IsPlain
    decide
  induction n using Nat.strongRecOn with
  | ind n ih =>
    rw [Nat.toDigits_eq_if (by decide)] at h
    split at h
    case isTrue few => exact List.mem_singleton.1 h ▸ digit n few
    case isFalse more =>
      rcases List.mem_append.1 h with front | last
      · exact ih (n / 16) (by omega) front
      · exact List.mem_singleton.1 last ▸ digit _ (Nat.mod_lt n (by decide))

-- A character without a shape of its own is printed as an escape that starts with another character.
theorem head?_reread {c : Char} (h : ¬IsKept c) : ∃ d ∈ (reread c).head?, d ≠ c := by
  have letters : ∀ d ∈ ['r', '0', 'u'], isGraphic d = true := List.all_eq_true.1 (by decide)
  have other (d : Char) (hd : d ∈ ['r', '0', 'u']) : d ≠ c := by
    rintro rfl
    exact h (.inl (letters d hd))
  simp only [IsKept, not_or] at h
  obtain ⟨hidden, line, tab⟩ := h
  have quote : c ≠ '"' := by rintro rfl; exact hidden (by decide)
  have backslash : c ≠ '\\' := by rintro rfl; exact hidden (by decide)
  simp only [reread, IsKept, hidden, line, tab, or_self, if_false, quoteChar, quote, backslash,
    Bool.false_eq_true]
  split
  · exact ⟨'r', rfl, other _ (by simp)⟩
  · split
    · exact ⟨'0', rfl, other _ (by simp)⟩
    · exact ⟨'u', rfl, other _ (by simp)⟩

theorem flatMap_reread_eq_iff {text : List Char} :
    text.flatMap reread = text ↔ ∀ c ∈ text, IsKept c := by
  induction text with
  | nil => simp
  | cons c rest ih =>
    rw [List.flatMap_cons, List.forall_mem_cons, ← ih]
    by_cases kept : IsKept c
    · simp [reread, kept]
    · obtain ⟨d, head, other⟩ := head?_reread kept
      obtain ⟨tail, e⟩ := List.head?_eq_some_iff.1 head
      simp [e, other, kept]

end Text

namespace Lexeme

open Text

variable {text rest : List Char}

-- What comes of the rest of a string literal when characters that are read as `value` stand before it.
def prepend (value text : List Char) (body : List Char × List Char × List Char) :
    List Char × List Char × List Char :=
  (value ++ body.1, text ++ body.2.1, body.2.2)

theorem map_prepend_map_prepend (v v' t t' : List Char)
    (body : Option (List Char × List Char × List Char)) :
    (body.map (prepend v' t')).map (prepend v t) = body.map (prepend (v ++ v') (t ++ t')) := by
  rw [Option.map_map]
  congr 1
  funext body
  simp [prepend]

theorem map_prepend_nil (body : Option (List Char × List Char × List Char)) :
    body.map (prepend [] []) = body :=
  Option.map_id' ..

theorem stringBody_escape (c : Char) :
    stringBody ('\\' :: c :: rest) = (stringBody rest).map (prepend [unescape c] ['\\', c]) := by
  rw [stringBody]
  rfl

theorem stringBody_cons {c : Char} (h : IsPlain c) :
    stringBody (c :: rest) = (stringBody rest).map (prepend [c] [c]) := by
  obtain ⟨quote, backslash, line⟩ := h
  rw [stringBody, if_neg line]
  · rfl
  all_goals simp_all

theorem stringBody_plain (plain : ∀ c ∈ text, IsPlain c) :
    stringBody (text ++ rest) = (stringBody rest).map (prepend text text) := by
  induction text with
  | nil => exact (map_prepend_nil _).symm
  | cons c more ih =>
    obtain ⟨first, plain⟩ := List.forall_mem_cons.1 plain
    rw [List.cons_append, stringBody_cons first, ih plain, map_prepend_map_prepend]
    rfl

theorem stringBody_quoteChar (c : Char) :
    stringBody (quoteChar c ++ rest) = (stringBody rest).map (prepend (reread c) (quoteChar c)) := by
  have escaped {d : Char} (form : quoteChar c = ['\\', d]) (read : reread c = [unescape d]) :
      stringBody (quoteChar c ++ rest) =
        (stringBody rest).map (prepend (reread c) (quoteChar c)) := by
    rw [form, read]
    exact stringBody_escape d
  by_cases quote : c = '"'
  · exact escaped (d := '"') (by rw [quote]; rfl) (by rw [quote]; rfl)
  by_cases backslash : c = '\\'
  · exact escaped (d := '\\') (by rw [backslash]; rfl) (by rw [backslash]; rfl)
  by_cases line : c = '\n'
  · exact escaped (d := 'n') (by rw [line]; rfl) (by rw [line]; rfl)
  by_cases feed : c = '\r'
  · exact escaped (d := 'r') (by rw [feed]; rfl) (by rw [feed]; rfl)
  by_cases tab : c = '\t'
  · exact escaped (d := 't') (by rw [tab]; rfl) (by rw [tab]; rfl)
  by_cases zero : c = '\x00'
  · exact escaped (d := '0') (by rw [zero]; rfl) (by rw [zero]; rfl)
  have form : quoteChar c = if isGraphic c then [c] else
      '\\' :: 'u' :: ('\x7b' :: (Nat.toDigits 16 c.toNat ++ ['\x7d'])) := by
    rw [quoteChar, if_neg quote, if_neg backslash, if_neg line, if_neg feed, if_neg tab, if_neg zero]
    rfl
  by_cases graphic : isGraphic c
  · rw [form, if_pos graphic, reread, if_pos (.inl graphic)]
    exact stringBody_cons ⟨quote, backslash, line⟩
  · have lost : ¬IsKept c := by simp [IsKept, graphic, line, tab]
    rw [reread, if_neg lost, form, if_neg graphic, List.cons_append, List.cons_append,
      stringBody_escape, stringBody_plain, map_prepend_map_prepend]
    · rfl
    · intro d hd
      rcases List.mem_cons.1 hd with rfl | hd
      · exact ⟨by decide, by decide, by decide⟩
      · rcases List.mem_append.1 hd with hd | hd
        · exact isPlain_of_mem_toDigits hd
        · exact List.mem_singleton.1 hd ▸ ⟨by decide, by decide, by decide⟩

theorem stringBody_quoted (text rest : List Char) :
    stringBody (text.flatMap quoteChar ++ '"' :: rest) =
      some (text.flatMap reread, text.flatMap quoteChar ++ ['"'], rest) := by
  induction text with
  | nil => rfl
  | cons c more ih =>
    rw [List.flatMap_cons, List.append_assoc, stringBody_quoteChar, ih]
    simp [prepend]

-- The closing quote is the first that no backslash stands before.
theorem exists_first_quoted (text rest : List Char) :
    ∃ l : Lexeme ('"' :: (text.flatMap quoteChar ++ '"' :: rest)),
      first '"' (text.flatMap quoteChar ++ '"' :: rest) = .ok l ∧
        l.token = some (.string (String.ofList (text.flatMap reread))) ∧
        l.text = quoteChars text ∧ l.rest = rest := by
  have literal : first '"' (text.flatMap quoteChar ++ '"' :: rest) =
      stringLiteral (text.flatMap quoteChar ++ '"' :: rest) := by
    unfold first
    rfl
  rw [literal]
  unfold stringLiteral
  split
  case h_1 none =>
    rw [stringBody_quoted] at none
    cases none
  case h_2 value text' rest' body =>
    rw [stringBody_quoted] at body
    obtain ⟨rfl, rfl, rfl⟩ : _ ∧ _ ∧ _ := by simpa using body
    exact ⟨_, rfl, rfl, rfl, rfl⟩

end Lexeme

theorem Token.reads_quoteChars (text rest : List Char) :
    Reads (Text.quoteChars text) [.string (String.ofList (text.flatMap Text.reread))] rest := by
  obtain ⟨l, first, token, same, left⟩ := Lexeme.exists_first_quoted text rest
  have reads := Reads.of_first first token
  rwa [same, left] at reads

theorem Literal.reads_string_render (text : String) :
    Token.Reads (Literal.string text).render.toList
      [.string (String.ofList (text.toList.flatMap Text.reread))] [] := by
  rw [Literal.render, Text.quote, String.toList_ofList]
  exact Token.reads_quoteChars text.toList []

-- What is printed for a text is read as one string token, with the text exactly if all its characters
-- are graphic, line feeds or tabs.
theorem Literal.scan_string_render (text : String) :
    ∃ read, (∃ tokens, Token.scan (Literal.string text).render = .ok tokens ∧
        tokens.map (·.kind) = [.string read, .symbol .semicolon, .eof]) ∧
      (read = text ↔ ∀ c ∈ text.toList, Text.isGraphic c = true ∨ c = '\n' ∨ c = '\t') := by
  refine ⟨_, Token.scan_of_reads (Literal.reads_string_render text) rfl, ?_⟩
  rw [← String.toList_inj, String.toList_ofList]
  exact Text.flatMap_reread_eq_iff

-- The reader takes the escape of a carriage return for the letter.
theorem Literal.carriage_return_reread :
    ∃ tokens, Token.scan (Literal.string "\r").render = .ok tokens ∧
      tokens.map (·.kind) = [.string "r", .symbol .semicolon, .eof] ∧
      ¬∃ tokens', Token.scan (Literal.string "\r").render = .ok tokens' ∧
        tokens'.map (·.kind) = [.string "\r", .symbol .semicolon, .eof] := by
  obtain ⟨tokens, scanned, kinds⟩ := Token.scan_of_reads (Literal.reads_string_render "\r") rfl
  refine ⟨tokens, scanned, kinds, fun ⟨tokens', scanned', kinds'⟩ => ?_⟩
  obtain rfl := Except.ok.inj (scanned.symm.trans scanned')
  have same := TokenKind.string.inj (List.cons.inj (kinds.symm.trans kinds')).1
  exact absurd same (by decide)

end FieldAccess
