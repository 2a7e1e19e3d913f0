import FieldAccess.Proofs.CapturedReferences
import FieldAccess.Proofs.IdentifierTokens
import Mathlib.Data.List.Find

namespace FieldAccess

namespace Text

-- Camel case makes an identifier of such a text.
structure IsHint (text : List Char) : Prop where
  start : ∀ c ∈ text.find? (!isSeparator ·), isAlphabetic c = true
  chars : ∀ c ∈ text, isSeparator c = false → isAlphanumeric c = true ∧ Steady c

-- A text in camel case.
structure IsSpelling (text : List Char) : Prop where
  start : ∀ c ∈ text.head?, isAlphabetic c = true
  chars : ∀ c ∈ text, isAlphanumeric c = true ∧ Steady c

theorem isSpelling_value : IsSpelling "v".toList := by
  rw [show "v".toList = ['v'] from rfl]
  exact ⟨fun _ => by rintro ⟨⟩; decide, List.forall_mem_singleton.2 (by decide)⟩

theorem not_separator_of_isAlphanumeric {c : Char} (h : isAlphanumeric c = true) :
    isSeparator c = false := by
  rw [Bool.eq_false_iff]
  intro separates
  simp only [isSeparator, Bool.or_eq_true, decide_eq_true_eq] at separates
  rcases separates with (rfl | rfl) | rfl
  all_goals exact absurd h (by decide)

theorem IsSpelling.isHint {text : List Char} (h : IsSpelling text) : IsHint text := by
  refine ⟨?_, fun c hc _ => h.chars c hc⟩
  cases text with
  | nil => nofun
  | cons c rest =>
    have kept := not_separator_of_isAlphanumeric (h.chars c (List.mem_cons_self ..)).1
    rw [List.find?_cons_of_pos (by simp [kept])]
    exact h.start

-- Words hold all characters but the separators, in order.
theorem flatten_wordsFrom (word text : List Char) :
    (wordsFrom word text).flatten = word ++ text.filter (!isSeparator ·) := by
  induction text generalizing word with
  | nil => simp [wordsFrom]
  | cons c rest ih =>
    rw [wordsFrom]
    split
    case isTrue separates => simp [ih, separates]
    case isFalse inWord =>
      split
      all_goals simp [ih, inWord]

theorem IsHint.words {text : List Char} (h : IsHint text) : IsSpelling (words text).flatten := by
  rw [Text.words, flatten_wordsFrom, List.nil_append]
  refine ⟨?_, fun c hc => ?_⟩
  · rw [List.head?_filter]
    exact h.start
  · obtain ⟨mem, kept⟩ := List.mem_filter.1 hc
    exact h.chars c mem (by simpa using kept)

theorem IsForm.isAlphanumeric {c d : Char} (h : IsForm c d) (hc : isAlphanumeric c = true) :
    Text.isAlphanumeric d = true := by
  rcases h.2 with rfl | letter
  · exact hc
  · exact isAlphanumeric_of_isAlphabetic letter

theorem IsForm.isAlphabetic {c d : Char} (h : IsForm c d) (hc : isAlphabetic c = true) :
    Text.isAlphabetic d = true := by
  rcases h.2 with rfl | letter
  · exact hc
  · exact letter

theorem isForm_lowerFrom (afterCased : Bool) {text : List Char} (h : ∀ c ∈ text, Steady c) :
    ∀ d ∈ lowerFrom afterCased text, ∃ c ∈ text, IsForm c d := by
  induction text generalizing afterCased with
  | nil => nofun
  | cons c rest ih =>
    obtain ⟨first, others⟩ := List.forall_mem_cons.1 h
    intro d hd
    rw [lowerFrom] at hd
    rcases List.mem_append.1 hd with hd | hd
    · refine ⟨c, List.mem_cons_self .., ?_⟩
      split at hd
      case isTrue =>
        rw [List.mem_singleton.1 hd]
        exact ⟨by decide, .inr (by decide)⟩
      case isFalse => exact isForm_lower first d hd
    · obtain ⟨c', mem, form⟩ := ih _ others d hd
      exact ⟨c', List.mem_cons_of_mem _ mem, form⟩

theorem isForm_capitalized {word : List Char} (h : ∀ c ∈ word, Steady c) :
    ∀ d ∈ capitalized word, ∃ c ∈ word, IsForm c d := by
  cases word with
  | nil => nofun
  | cons c rest =>
    obtain ⟨first, others⟩ := List.forall_mem_cons.1 h
    intro d hd
    rcases List.mem_append.1 hd with hd | hd
    · exact ⟨c, List.mem_cons_self .., isForm_upper first d hd⟩
    · obtain ⟨c', mem, form⟩ := isForm_lowerFrom false others d hd
      exact ⟨c', List.mem_cons_of_mem _ mem, form⟩

-- Characters that come from letters and numerals, in whatever case, are letters and numerals.
theorem chars_of_forms {source text : List Char}
    (h : ∀ c ∈ source, isAlphanumeric c = true ∧ Steady c)
    (forms : ∀ d ∈ text, ∃ c ∈ source, IsForm c d) :
    ∀ d ∈ text, isAlphanumeric d = true ∧ Steady d := by
  intro d hd
  obtain ⟨c, hc, form⟩ := forms d hd
  exact ⟨form.isAlphanumeric (h c hc).1, form.1⟩

-- The first word that is not empty decides how words in camel case start.
theorem start_capitalized {ws : List (List Char)} (h : IsSpelling ws.flatten) :
    ∀ d ∈ (ws.flatMap capitalized).head?, isAlphabetic d = true := by
  obtain ⟨start, chars⟩ := h
  induction ws with
  | nil => nofun
  | cons w ws ih =>
    cases w with
    | nil => exact ih start chars
    | cons c rest =>
      intro d hd
      obtain ⟨e, es, is⟩ := List.exists_cons_of_ne_nil (upper_startsHigh c).2
      rw [List.flatMap_cons, capitalized, is] at hd
      obtain rfl := Option.some.inj hd
      have form := isForm_upper (chars c (by simp)).2 e (is ▸ List.mem_cons_self ..)
      exact form.isAlphabetic (start c rfl)

theorem chars_capitalized {ws : List (List Char)}
    (h : ∀ c ∈ ws.flatten, isAlphanumeric c = true ∧ Steady c) :
    ∀ d ∈ ws.flatMap capitalized, isAlphanumeric d = true ∧ Steady d := by
  refine chars_of_forms h fun d hd => ?_
  obtain ⟨w, hw, hd⟩ := List.mem_flatMap.1 hd
  have inside : ∀ c ∈ w, c ∈ ws.flatten := fun c hc => List.mem_flatten.2 ⟨w, hw, hc⟩
  obtain ⟨c, hc, form⟩ := isForm_capitalized (fun c hc => (h c (inside c hc)).2) d hd
  exact ⟨c, inside c hc, form⟩

theorem isSpelling_capitalized {ws : List (List Char)} (h : IsSpelling ws.flatten) :
    IsSpelling (ws.flatMap capitalized) :=
  ⟨start_capitalized h, chars_capitalized h.chars⟩

theorem isSpelling_upperCamel {text : String} (h : IsHint text.toList) :
    IsSpelling (upperCamel text).toList := by
  rw [upperCamel, String.toList_ofList]
  exact isSpelling_capitalized h.words

theorem isSpelling_lowerCamel {text : String} (h : IsHint text.toList) :
    IsSpelling (lowerCamel text).toList := by
  have spelled := h.words
  unfold lowerCamel
  split
  case h_1 => exact ⟨nofun, nofun⟩
  case h_2 first rest is =>
    rw [String.toList_ofList]
    rw [is, List.flatten_cons] at spelled
    cases first with
    | nil => exact isSpelling_capitalized spelled
    | cons c word =>
      obtain ⟨start, chars⟩ := spelled
      obtain ⟨first, others⟩ := List.forall_mem_append.1 chars
      have lowered := isForm_lowerFrom false fun e he => (first e he).2
      refine ⟨fun d hd => ?_,
        List.forall_mem_append.2 ⟨chars_of_forms first lowered, chars_capitalized others⟩⟩
      have kept := first c (List.mem_cons_self ..)
      obtain ⟨e, he, -⟩ := lower_head (not_separator_of_isAlphanumeric kept.1)
      simp only [lowerText, lowerFrom, Bool.and_false, Bool.false_and, Bool.false_eq_true, if_false,
        List.append_assoc] at hd
      rw [List.head?_append, Option.mem_def.1 he] at hd
      obtain rfl := Option.some.inj hd
      exact (isForm_lower kept.2 e (List.mem_of_mem_head? he)).isAlphabetic (start c rfl)

-- A text in camel case with underscores and numbers behind it.
structure IsStem (text : List Char) : Prop where
  start : ∃ c ∈ text.head?, isAlphabetic c = true
  chars : ∀ c ∈ text, c ≠ '_' → isAlphanumeric c = true ∧ Steady c

theorem IsStem.append {text more : List Char} (h : IsStem text)
    (hm : ∀ c ∈ more, c ≠ '_' → isAlphanumeric c = true ∧ Steady c) : IsStem (text ++ more) := by
  obtain ⟨⟨c, hc, letter⟩, chars⟩ := h
  refine ⟨⟨c, ?_, letter⟩, List.forall_mem_append.2 ⟨chars, hm⟩⟩
  rw [List.head?_append, Option.mem_def.1 hc]
  rfl

theorem IsStem.isHint {text : List Char} (h : IsStem text) : IsHint text := by
  obtain ⟨⟨c, hc, letter⟩, chars⟩ := h
  refine ⟨?_, fun d hd kept => chars d hd fun e => ?_⟩
  · obtain ⟨rest, rfl⟩ := List.head?_eq_some_iff.1 hc
    have kept := not_separator_of_isAlphanumeric (isAlphanumeric_of_isAlphabetic letter)
    rw [List.find?_cons_of_pos (by simp [kept])]
    rintro _ ⟨⟩
    exact letter
  · subst e
    exact absurd kept (by decide)

theorem numeral_of_isDigit {c : Char} (h : c.isDigit = true) :
    (isAlphanumeric c = true ∧ Steady c) ∧ c.isLower = false := by
  have ascii : c.toNat < 0x80 := Nat.lt_of_le_of_lt (toNat_le_of_isDigit h) (by decide)
  exact forall_ascii (P := fun c => c.isDigit = true →
    (isAlphanumeric c = true ∧ Steady c) ∧ c.isLower = false) (by decide) ascii h

theorem IsSpelling.isStem {text : List Char} (h : IsSpelling text) (filled : text ≠ []) :
    IsStem text := by
  obtain ⟨c, rest, rfl⟩ := List.exists_cons_of_ne_nil filled
  exact ⟨⟨c, rfl, h.start c rfl⟩, fun d hd _ => h.chars d hd⟩

end Text

namespace Keyword

theorem ofString?_eq_none_iff {x : String} : ofString? x = none ↔ ∀ k ∈ all, k.render ≠ x := by
  simp [ofString?]

-- Each keyword is a word that no local variable may be.
theorem ofString?_of_unreserved {x : String} (h : x ∉ Naming.reservedWords) :
    ofString? x = none := by
  have reserved : ∀ k ∈ all, k.render ∈ Naming.reservedWords := by decide
  exact ofString?_eq_none_iff.2 fun k hk e => h (e ▸ reserved k hk)

-- Each keyword ends with a letter.
theorem ofString?_append {base more : String} {c : Char} (last : more.toList.getLast? = some c)
    (h : c.isLower = false) : ofString? (base ++ more) = none := by
  have lower : ∀ k ∈ all, k.render.toList.getLast?.any Char.isLower = true := by decide
  refine ofString?_eq_none_iff.2 fun k hk e => ?_
  have low := lower k hk
  rw [e, String.toList_append, List.getLast?_append, last] at low
  exact Bool.false_ne_true (h.symm.trans low)

end Keyword

theorem isIdentifier_of_isStem {x : String} (h : Text.IsStem x.toList)
    (other : Keyword.ofString? x = none) : IsIdentifier x := by
  refine isIdentifier_of_isWord ⟨?_, fun c hc => ?_, other⟩
  · obtain ⟨c, hc, letter⟩ := h.start
    exact ⟨c, hc, Bool.or_eq_true .. ▸ .inl letter⟩
  · rw [Lexeme.isWordChar, Bool.or_eq_true]
    by_cases blank : c = '_'
    · exact .inr (decide_eq_true blank)
    · exact .inl (h.chars c hc blank).1

namespace Naming

theorem isStem_localVariable {field : String} (h : Text.IsHint field.toList) :
    Text.IsStem (localVariable field).toList := by
  refine localVariable_of (P := fun x => Text.IsStem x.toList) ?_ fun x stem => ?_
  · split
    case isTrue => exact Text.isSpelling_value.isStem (by decide)
    case isFalse filled => exact (Text.isSpelling_lowerCamel h).isStem (by simpa using filled)
  · rw [String.toList_append]
    exact stem.append fun c hc other => absurd (List.mem_singleton.1 hc) other

theorem ofString?_localVariable (field : String) :
    Keyword.ofString? (localVariable field) = none := by
  have step (x : String) :
      Keyword.ofString? (if reservedWords.contains x then x ++ "_" else x) = none := by
    split
    case isTrue =>
      exact Keyword.ofString?_append (c := '_') (by decide) (by decide)
    case isFalse unreserved => exact Keyword.ofString?_of_unreserved (by simpa using unreserved)
  exact step _

-- A number behind a local variable keeps it an identifier.
theorem isIdentifier_candidates {field x : String} {count : Nat} (h : Text.IsHint field.toList)
    (mem : x ∈ candidates (localVariable field) count) :
    Text.IsHint x.toList ∧ IsIdentifier x := by
  have stem := isStem_localVariable h
  rcases List.mem_cons.1 mem with rfl | mem
  · exact ⟨stem.isHint, isIdentifier_of_isStem stem (ofString?_localVariable field)⟩
  · obtain ⟨n, _, rfl⟩ := List.mem_map.1 mem
    have digits : ∀ c ∈ (toString n).toList, c.isDigit = true := by
      rw [Nat.toString_eq_ofList_toDigits, String.toList_ofList]
      exact fun c hc => Nat.isDigit_of_mem_toDigits (by decide) (by decide) hc
    have numbered := stem.append fun c hc _ => (Text.numeral_of_isDigit (digits c hc)).1
    rw [← String.toList_append] at numbered
    refine ⟨numbered.isHint, isIdentifier_of_isStem numbered ?_⟩
    have filled : (toString n).toList ≠ [] := by
      simp
    have last := List.getLast?_eq_some_getLast filled
    exact Keyword.ofString?_append last
      (Text.numeral_of_isDigit (digits _ (List.getLast_mem filled))).2

end Naming

-- In camel case the identifier starts with a letter and holds letters and numerals alone: a letter
-- follows the underscores in front, if anything does, and no character has a mark in another case.
structure KeepsSpelling (x : String) : Prop where
  start : ∀ c ∈ x.toList.find? (· ≠ '_'), Text.isAlphabetic c = true
  chars : ∀ c ∈ x.toList, c ≠ '_' → Text.KeepsLetters c

section

variable {x : String} (identifier : IsIdentifier x)
include identifier

theorem IsIdentifier.isAlphanumeric {c : Char} (hc : c ∈ x.toList) (other : c ≠ '_') :
    Text.isAlphanumeric c = true := by
  have char := (isIdentifier_iff.1 identifier).chars c hc
  rw [Lexeme.isWordChar, Bool.or_eq_true] at char
  exact char.resolve_right fun blank => other (of_decide_eq_true blank)

-- The only separator in an identifier is the underscore.
theorem IsIdentifier.separates {c : Char} (hc : c ∈ x.toList) :
    (!Text.isSeparator c) = decide (c ≠ '_') := by
  by_cases blank : c = '_'
  · subst blank
    decide
  · simp [Text.not_separator_of_isAlphanumeric (identifier.isAlphanumeric hc blank), blank]

theorem KeepsSpelling.isHint (h : KeepsSpelling x) : Text.IsHint x.toList := by
  refine ⟨?_, fun c hc inWord => ?_⟩
  · rw [List.find?_congr fun c hc => identifier.separates hc]
    exact h.start
  · have other : c ≠ '_' := by simpa [inWord] using identifier.separates hc
    exact ⟨identifier.isAlphanumeric hc other, Text.steady_of_keepsLetters (h.chars c hc other)⟩

end

instance {x : String} : Decidable (KeepsSpelling x) :=
  decidable_of_iff ((x.toList.find? (· ≠ '_')).all Text.isAlphabetic = true ∧
      x.toList.all (fun c => decide (c ≠ '_' → Text.KeepsLetters c)) = true)
    ⟨fun ⟨start, chars⟩ => ⟨(Option.all_eq_true ..).1 start,
        fun c hc => of_decide_eq_true (List.all_eq_true.1 chars c hc)⟩,
      fun h => ⟨(Option.all_eq_true ..).2 h.start,
        List.all_eq_true.2 fun c hc => decide_eq_true (h.chars c hc)⟩⟩

namespace FuncDecl

-- The vocabulary of a method whose words may give their names to temporaries.
def identifiers (f : FuncDecl) : Vocabulary where
  word x := Text.IsHint x.toList
  referent _ := True
  declared x := x = "_" ∨ f.body.Declares x ∨ IsIdentifier x

-- The names that are out of use, of which all temporaries so far are identifiers.
def DrawsIdentifiers (f : FuncDecl) (taken : List String) : Prop :=
  ∃ drawn, taken = drawn ++ (Temporaries.ofMethod f.expand).taken ∧
    ∀ x ∈ drawn, IsIdentifier x ∧ x ≠ "_"

variable {f g : FuncDecl} {c : Catalog} {methods : MethodTable} {settings : Settings}

theorem identifiers_serves : f.identifiers.Serves c settings f.DrawsIdentifiers where
  blank := .inl rfl
  value := Text.isSpelling_value.isHint
  accessors info _ word := (Text.isSpelling_upperCamel word).isHint
  enums _ _ _ _ := ⟨trivial, trivial⟩
  temporaries hint taken word draws := by
    obtain ⟨drawn, is, legal⟩ := draws
    have near := (Naming.unique_spec (Naming.localVariable hint) taken).1
    obtain ⟨word, identifier⟩ := Naming.isIdentifier_candidates word near
    have named := Naming.unique_ne_blank (Naming.localVariable_ne_blank hint) taken
    exact ⟨⟨_ :: drawn, by rw [is, List.cons_append],
      List.forall_mem_cons.2 ⟨⟨identifier, named⟩, legal⟩⟩, word, .inr (.inr identifier)⟩

-- If all words of a method are identifiers that camel case keeps, then its temporaries are
-- identifiers other than the blank one, and so is all else that only the result declares.
theorem temporaries_are_identifiers (h : f.redirect c methods settings = .ok g)
    (words : ∀ w, f.body.Words w → IsIdentifier w ∧ KeepsSpelling w) :
    (∀ x ∈ f.temporaries c methods settings, IsIdentifier x ∧ x ≠ "_") ∧
      ∀ x, g.body.Declares x → x = "_" ∨ f.body.Declares x ∨ IsIdentifier x := by
  have keeps := (Block.keeps_iff (V := f.identifiers)).2
    ⟨fun w hw => (words w hw).2.isHint (words w hw).1, fun _ _ => trivial,
      fun _ declared => .inr (.inl declared)⟩
  obtain ⟨body, temps, run, rfl⟩ := redirect_iff.1 h
  obtain ⟨⟨drawn, is, legal⟩, kept⟩ :=
    redirectBody_keeps run identifiers_serves ⟨[], rfl, List.forall_mem_nil _⟩ keeps
  refine ⟨fun x hx => legal x ?_, (Block.keeps_iff.1 kept).2.2⟩
  simpa [temporaries, run, is] using hx

theorem words_capturing : ∀ w, capturing.body.Words w → IsIdentifier w ∧ KeepsSpelling w := by
  let written : Vocabulary :=
    ⟨(· ∈ ["_status", "o", "status", "xs", "next", "len"]), fun _ => True, fun _ => True⟩
  have keeps : ∀ s ∈ capturing.body.statements, s.Keeps written := by
    simp [capturing, onOrder, Block.statements, Expr.callNamed, written]
  have legal : ∀ w ∈ ["_status", "o", "status", "xs", "next", "len"],
      IsIdentifier w ∧ KeepsSpelling w := by
    decide
  exact fun w hw => legal w ((Block.keeps_iff.1 keeps).1 w hw)

theorem temporaries_are_identifiers_capturing :
    capturing.redirect .tagged ⟨[]⟩ .standard = .ok captured ∧
    ∀ x ∈ capturing.temporaries .tagged ⟨[]⟩ .standard, IsIdentifier x ∧ x ≠ "_" :=
  ⟨redirect_capturing, (temporaries_are_identifiers redirect_capturing words_capturing).1⟩

-- The method `func (o *Order) F(_2 []int) int`. It has `_2, o.count = next(), 7` and returns
-- `len(_2)`.
def numbered : FuncDecl :=
  let name (x : String) : Expr := .ident .nowhere x
  onOrder [⟨"_2", .slice .int⟩]
    [.assign .nowhere [name "_2", .select .nowhere (name "o") "count"] .assign
      [.callNamed "next" [] .nowhere, .literal .nowhere (.int 7)],
     .ret .nowhere [.callNamed "len" [name "_2"] .nowhere]]

-- The same method with `2 := next()`, `_2 = 2` and `o.SetCount(7)`.
def renumbered : FuncDecl :=
  let name (x : String) : Expr := .ident .nowhere x
  onOrder [⟨"_2", .slice .int⟩]
    [.assign .nowhere [name "2"] .define [.callNamed "next" [] .nowhere],
     .assign .nowhere [name "_2"] .assign [name "2"],
     .expr (.call .nowhere (.select .nowhere (name "o") "SetCount") []
       [.literal .nowhere (.int 7)]),
     .ret .nowhere [.callNamed "len" [name "_2"] .nowhere]]

theorem redirectBody_numbered : numbered.redirectBody .tagged ⟨[]⟩ .standard =
    .ok (renumbered.body, ⟨"2" :: (Temporaries.ofMethod numbered.expand).taken⟩) := by
  rw [redirectBody, redirectScope_own (e := ⟨.tagged, [.taggedCount, .taggedNote, .taggedStatus,
    .taggedTags]⟩) rfl (by decide) (by decide)]
  with_unfolding_all rfl

-- Camel case drops the underscore of `_2`, and a number is left.
theorem numeral_temporary :
    let catalog := (Catalog.build .tagged .standard {}).value
    numbered.redirect catalog ⟨[]⟩ .standard = .ok renumbered ∧
    (∀ w, numbered.body.Words w → IsIdentifier w) ∧
    "2" ∈ numbered.temporaries catalog ⟨[]⟩ .standard ∧
    (renumbered.body.Declares "2" ∧ ¬numbered.body.Declares "2") ∧ ¬IsIdentifier "2" := by
  rw [Catalog.build_tagged]
  let written : Vocabulary := ⟨(· ∈ ["_2", "o", "count", "next", "len"]), fun _ => True, (· ≠ "2")⟩
  have keeps : ∀ s ∈ numbered.body.statements, s.Keeps written := by
    simp [numbered, onOrder, Block.statements, Expr.callNamed, written]
  obtain ⟨words, -, declared⟩ := Block.keeps_iff.1 keeps
  have legal : ∀ w ∈ ["_2", "o", "count", "next", "len"], IsIdentifier w := by
    decide
  refine ⟨?_, fun w hw => legal w (words w hw), ?_, ⟨?_, fun h => declared _ h rfl⟩,
    by decide⟩
  · exact redirect_iff.2 ⟨_, _, redirectBody_numbered, rfl⟩
  · simp [temporaries, redirectBody_numbered]
  · exact ⟨_, ⟨_, List.mem_cons_self .., .self _⟩, by decide⟩

end FuncDecl

end FieldAccess
