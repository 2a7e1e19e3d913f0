import FieldAccess.Proofs.Success
import FieldAccess.Proofs.TokenBoundaries

namespace FieldAccess

namespace TypeExpr

-- The characters of a text that are no blanks.
def marks (text : List Char) : List Char :=
  text.filter fun c => !Text.isBlank c

theorem marks_dropWhile (text : List Char) :
    marks (text.dropWhile Text.isBlank) = marks text := by
  induction text with
  | nil => rfl
  | cons c rest ih =>
    rw [List.dropWhile_cons]
    split
    case isTrue blank => rw [ih, marks, marks, List.filter_cons_of_neg (by simp [blank])]
    case isFalse => rfl

theorem marks_eq_append {text pre rest : List Char} (plain : pre.all (!Text.isBlank ·) = true)
    (starts : text.dropWhile Text.isBlank = pre ++ rest) : marks text = pre ++ marks rest := by
  rw [← marks_dropWhile, starts, marks, List.filter_append,
    List.filter_eq_self.2 (List.all_eq_true.1 plain)]
  rfl

theorem marks_eq_nil {text : List Char} (h : text.all Text.isBlank = true) : marks text = [] :=
  List.filter_eq_nil_iff.2 fun c hc => by simp [List.all_eq_true.1 h c hc]

theorem not_blank_of_isNameChar {c : Char} (h : isNameChar c = true) : Text.isBlank c = false := by
  rw [isNameChar, Bool.or_eq_true, decide_eq_true_eq] at h
  rcases h with word | rfl
  · exact Lexeme.not_blank_of_isWordChar word
  · decide

-- A name that is read as itself.
structure IsName (name : String) : Prop where
  chars : ∀ c ∈ name.toList, isNameChar c = true
  checked : checkName name.toList = .ok (named name)

-- The types that texts are read as.
def Readable : TypeExpr → Prop
  | named name => IsName name
  | pointer inner | slice inner | approx inner => inner.Readable
  | map key value => key.Readable ∧ value.Readable

theorem checkName_ok {name : List Char} {t : TypeExpr} (h : checkName name = .ok t) :
    t = named (String.ofList name) := by
  unfold checkName at h
  split at h
  · cases h
  split at h
  · cases h
  split at h
  · cases h
  · exact (ok_pure.1 h).symm

theorem isName_of_checkName {name : List Char} (chars : ∀ c ∈ name, isNameChar c = true)
    {t : TypeExpr} (h : checkName name = .ok t) : IsName (String.ofList name) := by
  obtain rfl := checkName_ok h
  exact ⟨by rwa [String.toList_ofList], by rwa [String.toList_ofList]⟩

theorem IsName.ne_nil {name : String} (h : IsName name) : name.toList ≠ [] := by
  intro empty
  have := h.checked
  rw [empty, checkName_nil] at this
  cases this

theorem first_of_checkName {c : Char} {rest : List Char} {t : TypeExpr}
    (h : checkName ((c :: rest).takeWhile isNameChar) = .ok t) : isNameChar c = true := by
  by_contra other
  rw [List.takeWhile_cons_of_neg other, checkName_nil] at h
  cases h

-- By recursion on what is read: blanks stand only before the parts of a type.
theorem marks_of_front {text : List Char} {f : Front text} (h : front text = .ok f) :
    f.type.Readable ∧ marks text = f.type.render.toList ++ marks f.rest := by
  rw [front] at h
  split at h
  case h_1 rest starts =>
    have shorter := length_lt_of_dropWhile starts
    obtain ⟨inner, read, h⟩ := ok_bind.1 h
    obtain rfl := ok_pure.1 h
    obtain ⟨readable, same⟩ := marks_of_front read
    refine ⟨readable, ?_⟩
    rw [@marks_eq_append _ ['*'] _ (by decide) starts, same]
    simp [Front.map, Front.below, render]
  case h_2 rest starts =>
    have shorter := length_lt_of_dropWhile starts
    obtain ⟨inner, read, h⟩ := ok_bind.1 h
    obtain rfl := ok_pure.1 h
    obtain ⟨readable, same⟩ := marks_of_front read
    refine ⟨readable, ?_⟩
    rw [@marks_eq_append _ ['~'] _ (by decide) starts, same]
    simp [Front.map, Front.below, render]
  case h_3 rest starts =>
    have shorter := Nat.lt_of_succ_lt (length_lt_of_dropWhile starts)
    obtain ⟨element, read, h⟩ := ok_bind.1 h
    obtain rfl := ok_pure.1 h
    obtain ⟨readable, same⟩ := marks_of_front read
    refine ⟨readable, ?_⟩
    rw [@marks_eq_append _ ['[', ']'] _ (by decide) starts, same]
    simp [Front.map, Front.below, render]
  case h_4 rest starts =>
    have shorter := Nat.lt_of_succ_lt (Nat.lt_of_succ_lt (Nat.lt_of_succ_lt
      (length_lt_of_dropWhile starts)))
    obtain ⟨⟨key, afterKey, lt₁⟩, readKey, h⟩ := ok_bind.1 h
    dsimp only at h
    split at h
    case h_2 => cases h
    case h_1 rest' closes =>
    have shorter' := length_lt_of_dropWhile closes
    obtain ⟨value, readValue, h⟩ := ok_bind.1 h
    obtain rfl := ok_pure.1 h
    obtain ⟨readableKey, sameKey⟩ := marks_of_front readKey
    obtain ⟨readableValue, sameValue⟩ := marks_of_front readValue
    refine ⟨⟨readableKey, readableValue⟩, ?_⟩
    dsimp only at sameKey
    rw [@marks_eq_append _ ['m', 'a', 'p', '['] _ (by decide) starts, sameKey,
      @marks_eq_append _ [']'] _ (by decide) closes, sameValue]
    simp [Front.map, Front.below, render]
  case h_5 => cases h
  case h_6 c rest _ _ _ _ starts =>
    obtain ⟨type, checked, h⟩ := ok_bind.1 h
    obtain rfl := ok_pure.1 h
    have chars : ∀ d ∈ (c :: rest).takeWhile isNameChar, isNameChar d = true := fun d mem =>
      List.all_eq_true.1 List.all_takeWhile d mem
    have first := first_of_checkName checked
    obtain rfl := checkName_ok checked
    refine ⟨isName_of_checkName chars checked, ?_⟩
    have parts : text.dropWhile Text.isBlank =
        (c :: rest).takeWhile isNameChar ++ rest.dropWhile isNameChar := by
      rw [starts, List.takeWhile_cons_of_pos first, List.cons_append,
        List.takeWhile_append_dropWhile]
    have plain : ((c :: rest).takeWhile isNameChar).all (!Text.isBlank ·) = true :=
      List.all_eq_true.2 fun d mem => by simp [not_blank_of_isNameChar (chars d mem)]
    rw [marks_eq_append plain parts, render, String.toList_ofList]
termination_by text.length
decreasing_by
  all_goals omega

-- A type stands at the front of a text, and the rest follows it.
def Starts (text : List Char) (t : TypeExpr) (rest : List Char) : Prop :=
  ∃ f : Front text, front text = .ok f ∧ f.type = t ∧ f.rest = rest

theorem dropWhile_cons {c : Char} (h : Text.isBlank c = false) (rest : List Char) :
    (c :: rest).dropWhile Text.isBlank = c :: rest :=
  List.dropWhile_cons_of_neg (by simp [h])

theorem Starts.pointer {text rest : List Char} {t : TypeExpr} (h : Starts text t rest) :
    Starts ('*' :: text) t.pointer rest := by
  obtain ⟨f, read, rfl, rfl⟩ := h
  have starts := dropWhile_cons (c := '*') (by decide) text
  unfold Starts
  rw [front]
  split
  case h_1 text' starts' =>
    obtain ⟨-, rfl⟩ := List.cons.inj (starts.symm.trans starts')
    refine ⟨_, ok_bind.2 ⟨f, read, rfl⟩, rfl, rfl⟩
  all_goals simp_all

theorem Starts.approx {text rest : List Char} {t : TypeExpr} (h : Starts text t rest) :
    Starts ('~' :: text) t.approx rest := by
  obtain ⟨f, read, rfl, rfl⟩ := h
  have starts := dropWhile_cons (c := '~') (by decide) text
  unfold Starts
  rw [front]
  split
  case h_2 text' starts' =>
    obtain ⟨-, rfl⟩ := List.cons.inj (starts.symm.trans starts')
    exact ⟨_, ok_bind.2 ⟨f, read, rfl⟩, rfl, rfl⟩
  all_goals simp_all

theorem Starts.slice {text rest : List Char} {t : TypeExpr} (h : Starts text t rest) :
    Starts ('[' :: ']' :: text) t.slice rest := by
  obtain ⟨f, read, rfl, rfl⟩ := h
  have starts := dropWhile_cons (c := '[') (by decide) (']' :: text)
  unfold Starts
  rw [front]
  split
  case h_3 text' starts' =>
    obtain ⟨-, -, rfl⟩ : '[' = '[' ∧ ']' = ']' ∧ text = text' := by
      simpa using starts.symm.trans starts'
    exact ⟨_, ok_bind.2 ⟨f, read, rfl⟩, rfl, rfl⟩
  all_goals simp_all

theorem Starts.map {text middle rest : List Char} {key value : TypeExpr}
    (hkey : Starts text key (']' :: middle)) (hvalue : Starts middle value rest) :
    Starts ('m' :: 'a' :: 'p' :: '[' :: text) (key.map value) rest := by
  obtain ⟨f, readKey, rfl, after⟩ := hkey
  obtain ⟨g, readValue, rfl, rfl⟩ := hvalue
  have starts := dropWhile_cons (c := 'm') (by decide) ('a' :: 'p' :: '[' :: text)
  have closes := dropWhile_cons (c := ']') (by decide) middle
  unfold Starts
  rw [front]
  split
  case h_4 text' starts' =>
    obtain rfl : text = text' := by simpa using starts.symm.trans starts'
    obtain ⟨key, afterKey, shorter⟩ := f
    obtain rfl := after
    rw [readKey]
    simp only [bind, Except.bind]
    split
    case h_1 middle' closes' =>
      obtain ⟨-, rfl⟩ := List.cons.inj (closes.symm.trans closes')
      exact ⟨_, ok_bind.2 ⟨g, readValue, rfl⟩, rfl, rfl⟩
    case h_2 other => exact absurd closes (other middle)
  all_goals simp_all

-- A text that starts with a character of names is read as a name, unless a map type starts it.
theorem Starts.named {name : String} (h : IsName name) {rest : List Char}
    (ends : ∀ c ∈ rest.head?, isNameChar c = false ∧ c ≠ '[') :
    Starts (name.toList ++ rest) (.named name) rest := by
  obtain ⟨taken, left⟩ := Token.takeWhile_append h.chars fun c mem => (ends c mem).1
  have starts : (name.toList ++ rest).dropWhile Text.isBlank = name.toList ++ rest := by
    obtain ⟨c, more, cons⟩ := List.exists_cons_of_ne_nil h.ne_nil
    rw [cons]
    exact dropWhile_cons (not_blank_of_isNameChar (h.chars c (cons ▸ List.mem_cons_self))) _
  have first {c : Char} {more : List Char}
      (opens : (name.toList ++ rest).dropWhile Text.isBlank = c :: more) : isNameChar c = true := by
    rw [starts] at opens
    refine h.chars c (List.mem_of_mem_head? (?_ : name.toList.head? = some c))
    rw [← List.head?_append_of_ne_nil _ h.ne_nil, opens, List.head?_cons]
  unfold Starts
  rw [front]
  split
  case h_1 star => exact absurd (first star) (by decide)
  case h_2 tilde => exact absurd (first tilde) (by decide)
  case h_3 bracket => exact absurd (first bracket) (by decide)
  case h_4 inner opens =>
    have left' : (name.toList ++ rest).dropWhile isNameChar = '[' :: inner := by
      rw [← starts, opens]
      rfl
    exact absurd rfl (ends '[' (by rw [← left, left']; rfl)).2
  case h_5 none =>
    rw [starts] at none
    exact absurd (List.append_eq_nil_iff.1 none).1 h.ne_nil
  case h_6 d after noStar noTilde noSlice noMap starts' =>
    rw [starts] at starts'
    have same : (d :: after).takeWhile isNameChar = name.toList := by rw [← starts', taken]
    have name' : checkName ((d :: after).takeWhile isNameChar) = .ok (.named name) := by
      rw [same, h.checked]
    refine ⟨_, ok_bind.2 ⟨_, name', rfl⟩, rfl, ?_⟩
    rw [starts', List.dropWhile_cons_of_pos (first_of_checkName name')] at left
    exact left

-- A printed type is read as what it was printed from, before a rest that does not go on with it.
theorem starts_render {t : TypeExpr} (h : t.Readable) {rest : List Char}
    (ends : ∀ c ∈ rest.head?, isNameChar c = false ∧ c ≠ '[') :
    Starts (t.render.toList ++ rest) t rest := by
  induction t generalizing rest with
  | named name => exact .named h ends
  | pointer inner ih =>
    rw [render, String.toList_append, List.append_assoc]
    exact (ih h ends).pointer
  | slice element ih =>
    rw [render, String.toList_append, List.append_assoc]
    exact (ih h ends).slice
  | approx inner ih =>
    rw [render, String.toList_append, List.append_assoc]
    exact (ih h ends).approx
  | map key value ihKey ihValue =>
    simp only [render, String.toList_append, List.append_assoc]
    refine .map (ihKey h.1 ?_) (ihValue h.2 ends)
    intro c mem
    obtain rfl : ']' = c := by simpa using mem
    exact ⟨by decide, by decide⟩

theorem parse_eq_ok {text : String} {t : TypeExpr} :
    parse text = .ok t ↔ ∃ rest, Starts text.toList t rest ∧ rest.all Text.isBlank = true := by
  rw [parse, ok_bind]
  constructor
  · rintro ⟨f, read, h⟩
    dsimp only at h
    split at h
    · exact ⟨f.rest, ⟨f, read, ok_pure.1 h, rfl⟩, ‹_›⟩
    · cases h
  · rintro ⟨rest, ⟨f, read, rfl, rfl⟩, blank⟩
    exact ⟨f, read, if_pos blank⟩

theorem readable_of_parse {text : String} {t : TypeExpr} (h : parse text = .ok t) : t.Readable := by
  obtain ⟨rest, ⟨f, read, rfl, rfl⟩, -⟩ := parse_eq_ok.1 h
  exact (marks_of_front read).1

theorem parse_render {t : TypeExpr} (h : t.Readable) : parse t.render = .ok t := by
  have starts : Starts (t.render.toList ++ []) t [] := starts_render h (by simp)
  rw [List.append_nil] at starts
  exact parse_eq_ok.2 ⟨[], starts, rfl⟩

-- A text that is read as a type is the printed type but for blanks.
theorem marks_of_parse {text : String} {t : TypeExpr} (h : parse text = .ok t) :
    marks text.toList = t.render.toList := by
  obtain ⟨rest, ⟨f, read, rfl, rfl⟩, blank⟩ := parse_eq_ok.1 h
  rw [(marks_of_front read).2, marks_eq_nil blank, List.append_nil]

end TypeExpr

end FieldAccess
