import FieldAccess.Proofs.ConstantNames
import FieldAccess.Proofs.FreshNames
import FieldAccess.Proofs.PlanParts

namespace FieldAccess

namespace Text

-- The runs map nothing to the code point.
def CaseRun.Misses (n : Nat) (runs : List CaseRun) : Prop :=
  ∀ run ∈ runs, (n : Int) < run.first + run.distance ∨ run.last + run.distance < (n : Int)

theorem CaseRun.image?_ne {runs : List CaseRun} {n k target : Nat} (misses : Misses target runs)
    (h : image? n runs = some k) : target = 0 ∨ k ≠ target := by
  obtain ⟨run, mem, inRun, rfl⟩ := exists_of_image? h
  have := misses run mem
  omega

theorem ofNat_ne {n : Nat} {c : Char} (pos : 0 < c.toNat) (h : n ≠ c.toNat) : Char.ofNat n ≠ c := by
  rintro rfl
  by_cases valid : n.isValidChar
  · rw [Char.ofNat, dif_pos valid] at h
    exact h rfl
  · rw [Char.ofNat, dif_neg valid] at pos
    exact absurd pos (by decide)

theorem toUpper_ne_underscore {c : Char} (h : c ≠ '_') : c.toUpper ≠ '_' := by
  unfold Char.toUpper
  split
  case isTrue lower =>
    intro e
    have sum := congrArg UInt32.toNat (congrArg Char.val e)
    rw [UInt32.toNat_add] at sum
    change (c.val.toNat + 4294967264) % 4294967296 = 95 at sum
    have first : 97 ≤ c.val.toNat := lower.1
    have last : c.val.toNat ≤ 122 := lower.2
    omega
  case isFalse => exact h

theorem toLower_ne_underscore {c : Char} (h : c ≠ '_') : c.toLower ≠ '_' := by
  unfold Char.toLower
  split
  case isTrue upper =>
    intro e
    have sum := congrArg UInt32.toNat (congrArg Char.val e)
    rw [UInt32.toNat_add] at sum
    change (c.val.toNat + 32) % 4294967296 = 95 at sum
    have first : 65 ≤ c.val.toNat := upper.1
    have last : c.val.toNat ≤ 90 := upper.2
    omega
  case isFalse => exact h

theorem image_ne {runs : List CaseRun} {c d : Char} (pos : 0 < d.toNat)
    (misses : CaseRun.Misses d.toNat runs) (h : c ≠ d) :
    ((CaseRun.image? c.toNat runs).map Char.ofNat).getD c ≠ d := by
  cases hk : CaseRun.image? c.toNat runs with
  | none => exact h
  | some k =>
    rcases CaseRun.image?_ne misses hk with zero | ne
    · omega
    · exact ofNat_ne pos ne

theorem underscore_not_mem_upper {c : Char} (h : c ≠ '_') : '_' ∉ upper c := by
  unfold upper
  split
  · simpa using (toUpper_ne_underscore h).symm
  · split
    case h_1 image hi =>
      have mem := List.mem_of_find?_eq_some hi
      have all : ∀ e ∈ upperExpansions, 0x5f ∉ e.2 := by decide
      intro hm
      obtain ⟨n, hn, e⟩ := List.mem_map.1 hm
      have ne : n ≠ 0x5f := fun same => all _ mem (same ▸ hn)
      exact ofNat_ne (by decide) ne e
    case h_2 =>
      have misses : CaseRun.Misses '_'.toNat upperRuns := by
        unfold CaseRun.Misses
        decide +kernel
      simpa using (image_ne (by decide) misses h).symm

theorem underscore_not_mem_lower {c : Char} (h : c ≠ '_') : '_' ∉ lower c := by
  unfold lower
  split
  · simpa using (toLower_ne_underscore h).symm
  · split
    · decide
    · have misses : CaseRun.Misses '_'.toNat lowerRuns := by
        unfold CaseRun.Misses
        decide +kernel
      simpa using (image_ne (by decide) misses h).symm

theorem underscore_not_mem_lowerFrom (afterCased : Bool) {text : List Char} (h : '_' ∉ text) :
    '_' ∉ lowerFrom afterCased text := by
  induction text generalizing afterCased with
  | nil => exact h
  | cons c rest ih =>
    simp only [List.mem_cons, not_or] at h
    rw [lowerFrom, List.mem_append, not_or]
    refine ⟨?_, ih _ h.2⟩
    split
    · decide
    · exact underscore_not_mem_lower (Ne.symm h.1)

theorem underscore_not_mem_wordsFrom {word text : List Char} (h : '_' ∉ word) :
    ∀ w ∈ wordsFrom word text, '_' ∉ w := by
  induction text generalizing word with
  | nil => simpa [wordsFrom] using h
  | cons c rest ih =>
    rw [wordsFrom]
    split
    case isTrue => simpa using ⟨h, ih (by simp)⟩
    case isFalse inWord =>
      have hc : c ≠ '_' := fun e => inWord (by simp [e, isSeparator])
      have longer : '_' ∉ word ++ [c] := by simpa [h] using hc.symm
      split
      · simpa using ⟨by simpa using longer, ih (by simp)⟩
      · exact ih longer

theorem underscore_not_mem_capitalized {word : List Char} (h : '_' ∉ word) :
    '_' ∉ capitalized word := by
  cases word with
  | nil => exact h
  | cons c rest =>
    simp only [List.mem_cons, not_or] at h
    rw [capitalized, List.mem_append, not_or]
    exact ⟨underscore_not_mem_upper (Ne.symm h.1), underscore_not_mem_lowerFrom _ h.2⟩

theorem underscore_not_mem_lowerCamel (text : String) : '_' ∉ (lowerCamel text).toList := by
  unfold lowerCamel
  have words : ∀ w ∈ wordsFrom [] text.toList, '_' ∉ w := underscore_not_mem_wordsFrom (by simp)
  split
  · simp
  case h_2 first rest hw =>
    rw [Text.words] at hw
    rw [hw] at words
    simp only [String.toList_ofList, List.mem_append, List.mem_flatMap, not_or, not_exists, not_and]
    exact ⟨underscore_not_mem_lowerFrom _ (words _ (by simp)),
      fun w hw => underscore_not_mem_capitalized (words w (by simp [hw]))⟩

-- No separator, and no capital of the basic alphabet.
def IsLow (c : Char) : Prop :=
  isSeparator c = false ∧ c.isUpper = false

instance (c : Char) : Decidable (IsLow c) :=
  inferInstanceAs (Decidable (_ ∧ _))

def StartsWithSeparator (text : String) : Prop :=
  ∃ c ∈ text.toList.head?, isSeparator c = true

def StartsLow (text : String) : Prop :=
  ∃ c ∈ text.toList.head?, IsLow c

theorem StartsLow.append {text : String} (h : StartsLow text) (more : String) :
    StartsLow (text ++ more) := by
  obtain ⟨c, hc, low⟩ := h
  refine ⟨c, ?_, low⟩
  rw [String.toList_append, List.head?_append, Option.mem_def.1 hc]
  rfl

theorem StartsLow.not_separator {text : String} (h : StartsLow text) :
    ¬StartsWithSeparator text := by
  rintro ⟨c, hc, separates⟩
  obtain ⟨c', hc', low, _⟩ := h
  obtain rfl := Option.mem_unique hc hc'
  exact Bool.false_ne_true (low.symm.trans separates)

theorem not_separator_iff {c : Char} : isSeparator c = false ↔ ∀ d ∈ ['_', '-', ' '], c ≠ d := by
  simp [isSeparator, and_assoc]

theorem isUpper_iff {c : Char} : c.isUpper = true ↔ 0x41 ≤ c.toNat ∧ c.toNat ≤ 0x5a := by
  change decide (0x41 ≤ c.val ∧ c.val ≤ 0x5a) = true ↔ _
  rw [decide_eq_true_eq]
  exact and_congr UInt32.le_iff_toNat_le UInt32.le_iff_toNat_le

theorem isLow_of_toNat {c : Char} (h : c.toNat < 0x20 ∨ 0x5f < c.toNat) : IsLow c := by
  constructor
  · have between : ∀ n ∈ ['_', '-', ' '].map Char.toNat, 0x20 ≤ n ∧ n ≤ 0x5f := by decide
    refine not_separator_iff.2 fun d hd e => ?_
    have := between _ (List.mem_map_of_mem hd)
    rw [e] at h
    omega
  · rw [Bool.eq_false_iff, Ne, isUpper_iff]
    omega

theorem isLow_ofNat {n : Nat} (h : n < 0x20 ∨ 0x5f < n) : IsLow (Char.ofNat n) := by
  apply isLow_of_toNat
  by_cases valid : n.isValidChar
  · rw [Char.ofNat, dif_pos valid]
    exact h
  · rw [Char.ofNat, dif_neg valid]
    exact .inl (by decide)

theorem forall_ascii {P : Char → Prop} (h : ∀ n < 0x80, P (Char.ofNat n)) {c : Char}
    (ascii : c.toNat < 0x80) : P c := by
  have same := h c.toNat ascii
  rwa [Char.ofNat_toNat] at same

theorem lower_head {c : Char} (h : isSeparator c = false) : ∃ d ∈ (lower c).head?, IsLow d := by
  unfold lower
  split
  case isTrue ascii =>
    have low := forall_ascii (P := fun c => isSeparator c = false → IsLow c.toLower)
      (by decide) ascii
    exact ⟨_, rfl, low h⟩
  case isFalse high =>
    split
    · exact ⟨'i', rfl, by decide⟩
    · refine ⟨_, rfl, ?_⟩
      cases hk : CaseRun.image? c.toNat lowerRuns with
      | none =>
        rw [Option.map_none, Option.getD_none]
        exact isLow_of_toNat (.inr (by omega))
      | some k =>
        have away : ∀ run ∈ lowerRuns, run.last + run.distance < (0x20 : Nat) ∨
            (0x5f : Nat) < run.first + run.distance := by
          decide +kernel
        exact isLow_ofNat (image?_of_runs (by decide) away hk)

theorem upper_head {c : Char} (h : isSeparator c = false) :
    ∃ d ∈ (upper c).head?, isSeparator d = false := by
  unfold upper
  split
  case isTrue ascii =>
    have kept := forall_ascii (P := fun c => isSeparator c = false → isSeparator c.toUpper = false)
      (by decide) ascii
    exact ⟨_, rfl, kept h⟩
  case isFalse high =>
    split
    case h_1 image hi =>
      have all : ∀ e ∈ upperExpansions, ∃ n ∈ e.2.head?, isSeparator (Char.ofNat n) = false := by
        decide
      obtain ⟨n, hn, kept⟩ := all _ (List.mem_of_find?_eq_some hi)
      exact ⟨_, by simp [Option.mem_def.1 hn], kept⟩
    case h_2 =>
      have missed : ∀ n ∈ ['_', '-', ' '].map Char.toNat, 0 < n ∧ CaseRun.Misses n upperRuns := by
        unfold CaseRun.Misses
        decide +kernel
      refine ⟨_, rfl, not_separator_iff.2 fun d hd => ?_⟩
      obtain ⟨pos, misses⟩ := missed _ (List.mem_map_of_mem hd)
      exact image_ne pos misses (not_separator_iff.1 h d hd)

theorem wordsFrom_cons (c : Char) (word text : List Char) :
    ∃ rest others, wordsFrom (c :: word) text = (c :: rest) :: others := by
  induction text generalizing word with
  | nil => exact ⟨word, [], rfl⟩
  | cons d text ih =>
    rw [wordsFrom]
    split
    · exact ⟨word, _, rfl⟩
    · split
      · exact ⟨word ++ [d], _, rfl⟩
      · exact ih (word ++ [d])

theorem words_cons {c : Char} (h : isSeparator c = false) (text : List Char) :
    ∃ rest others, words (c :: text) = (c :: rest) :: others := by
  rw [words, wordsFrom, if_neg (by simp [h])]
  split
  · exact ⟨[], _, rfl⟩
  · exact wordsFrom_cons c [] text

theorem lowerCamel_startsLow {text : String} {c : Char} {rest : List Char}
    (is : text.toList = c :: rest) (h : isSeparator c = false) : StartsLow (lowerCamel text) := by
  obtain ⟨word, others, first⟩ := words_cons h rest
  obtain ⟨d, hd, low⟩ := lower_head h
  refine ⟨d, ?_, low⟩
  simp only [lowerCamel, is, first, String.toList_ofList, lowerText, lowerFrom, Bool.and_false,
    Bool.false_and, Bool.false_eq_true, if_false, List.append_assoc]
  rw [List.head?_append, Option.mem_def.1 hd]
  rfl

theorem upperCamel_not_separator {text : String} (h : ¬StartsWithSeparator text) :
    ¬StartsWithSeparator (upperCamel text) := by
  rintro ⟨d, hd, separates⟩
  rw [upperCamel, String.toList_ofList] at hd
  cases is : text.toList with
  | nil => simp [is, words, wordsFrom, capitalized] at hd
  | cons c rest =>
    have kept : isSeparator c = false := by
      rw [Bool.eq_false_iff]
      exact fun sep => h ⟨c, by simp [is], sep⟩
    obtain ⟨word, others, first⟩ := words_cons kept rest
    obtain ⟨d', hd', kept⟩ := upper_head kept
    simp only [is, first, List.flatMap_cons, capitalized, List.append_assoc] at hd
    rw [List.head?_append, Option.mem_def.1 hd'] at hd
    obtain rfl := Option.some.inj hd
    exact Bool.false_ne_true (kept.symm.trans separates)

end Text

namespace Naming

-- A local variable is a word in camel case with at most underscores behind it.
theorem localVariable_of {P : String → Prop} {field : String}
    (plain : P (if (Text.lowerCamel field).isEmpty then "v" else Text.lowerCamel field))
    (append : ∀ x, P x → P (x ++ "_")) : P (localVariable field) := by
  have step {p : Prop} [Decidable p] {x : String} (h : P x) : P (if p then x ++ "_" else x) := by
    split
    · exact append x h
    · exact h
  exact step (step plain)

theorem localVariable_ne_blank (field : String) : localVariable field ≠ "_" := by
  refine (localVariable_of (P := fun x => x ≠ "" ∧ x ≠ "_") ?_ fun x h => ?_).2
  · split
    case isTrue => decide
    case isFalse filled =>
      have noUnderscore := Text.underscore_not_mem_lowerCamel field
      exact ⟨fun e => filled (by simp [e]), fun e => noUnderscore (by rw [e]; decide)⟩
  · refine ⟨fun e => h.1 (String.append_eq_empty_iff.1 e).1, fun e => h.1 ?_⟩
    have same := congrArg String.toList e
    simp_all

theorem unique_ne_blank {base : String} (h : base ≠ "_") (taken : List String) :
    unique base taken ≠ "_" := by
  intro e
  have mem := (unique_spec base taken).1
  rw [e] at mem
  rcases List.mem_cons.1 mem with blank | mem
  · exact h blank.symm
  · obtain ⟨n, _, e⟩ := List.mem_map.1 mem
    have same := congrArg String.toList e
    rw [toList_numbered] at same
    cases hb : base.toList with
    | nil =>
      rw [hb] at same
      exact Nat.underscore_not_in_toDigits (n := n) (by simp [show Nat.toDigits 10 n = ['_'] from same])
    | cons c rest =>
      rw [hb] at same
      simp [Nat.toDigits_ne_nil] at same

theorem localVariable_startsLow {field : String} (h : ¬Text.StartsWithSeparator field) :
    Text.StartsLow (localVariable field) := by
  refine localVariable_of ?_ fun x low => low.append "_"
  split
  case isTrue => exact ⟨'v', rfl, by decide⟩
  case isFalse filled =>
    cases is : field.toList with
    | nil => exact absurd (by simp [Text.lowerCamel, is, Text.words, Text.wordsFrom, Text.lowerText,
        Text.lowerFrom]) filled
    | cons c rest =>
      refine Text.lowerCamel_startsLow is
        (Bool.eq_false_iff.2 fun separates => h ⟨c, ?_, separates⟩)
      rw [is]
      rfl

theorem candidates_startsLow {base x : String} {count : Nat} (h : Text.StartsLow base)
    (mem : x ∈ candidates base count) : Text.StartsLow x := by
  rcases List.mem_cons.1 mem with rfl | mem
  · exact h
  · obtain ⟨n, _, rfl⟩ := List.mem_map.1 mem
    exact h.append _

end Naming

-- What draws new names: each differs from all that are taken and from one another.
structure Draws {α : Type} (x : StateM Temporaries α) (names : α → List String) : Prop where
  mono : ∀ s, s.taken ⊆ (x s).2.taken
  taken : ∀ s, ∀ name ∈ names (x s).1, name ∈ (x s).2.taken
  fresh : ∀ s, ∀ name ∈ names (x s).1, name ∉ s.taken ∧ name ≠ "_"
  nodup : ∀ s, (names (x s).1).Nodup

namespace Draws

variable {α β : Type}

theorem pure (a : α) {names : α → List String} (none : names a = []) :
    Draws (pure a) names where
  mono _ := List.Subset.refl _
  taken s name h := by simp [state_pure, none] at h
  fresh s name h := by simp [state_pure, none] at h
  nodup s := by simp [state_pure, none]

theorem fresh_name (hint : String) : Draws (Temporaries.fresh hint) ([·]) where
  mono _ := List.subset_cons_self ..
  taken _ name h := List.mem_cons.2 (.inl (List.mem_singleton.1 h))
  fresh s name h := by
    obtain rfl := List.mem_singleton.1 h
    exact ⟨Naming.unique_not_mem _ _, Naming.unique_ne_blank (Naming.localVariable_ne_blank hint) _⟩
  nodup _ := List.nodup_singleton _

theorem map {x : StateM Temporaries α} {names : α → List String} {names' : β → List String}
    (h : Draws x names) (g : α → β) (same : ∀ a, names' (g a) = names a) :
    Draws (do return g (← x)) names' where
  mono := h.mono
  taken s name hn := h.taken s name (by rw [← same]; exact hn)
  fresh s name hn := h.fresh s name (by rw [← same]; exact hn)
  nodup s := (same (x s).1) ▸ h.nodup s

theorem mapM {f : α → StateM Temporaries β} {names : β → List String}
    (h : ∀ a, Draws (f a) names) (l : List α) : Draws (l.mapM f) (·.flatMap names) := by
  induction l with
  | nil => exact pure _ rfl
  | cons a l ih =>
    have run (s : Temporaries) : ((a :: l).mapM f) s =
        ((f a s).1 :: (l.mapM f (f a s).2).1, (l.mapM f (f a s).2).2) := by
      rw [List.mapM_cons]
      rfl
    refine ⟨fun s => ?_, fun s name hn => ?_, fun s name hn => ?_, fun s => ?_⟩
    · rw [run]
      exact List.Subset.trans ((h a).mono s) (ih.mono _)
    · rw [run] at hn ⊢
      rcases List.mem_append.1 hn with hn | hn
      · exact ih.mono _ ((h a).taken s name hn)
      · exact ih.taken _ name hn
    · rw [run] at hn
      rcases List.mem_append.1 hn with hn | hn
      · exact (h a).fresh s name hn
      · obtain ⟨free, blank⟩ := ih.fresh _ name hn
        exact ⟨fun taken => free ((h a).mono s taken), blank⟩
    · rw [run]
      refine List.nodup_append.2 ⟨(h a).nodup s, ih.nodup _, fun name hn other ho e => ?_⟩
      exact (ih.fresh _ other ho).1 (e ▸ (h a).taken s name hn)

theorem sublist {x : StateM Temporaries α} {names names' : α → List String} (h : Draws x names)
    (sub : ∀ a, (names' a).Sublist (names a)) : Draws x names' where
  mono := h.mono
  taken s name hn := h.taken s name ((sub _).subset hn)
  fresh s name hn := h.fresh s name ((sub _).subset hn)
  nodup s := (h.nodup s).sublist (sub _)

-- Names that are drawn one after the other.
theorem bind {x : StateM Temporaries α} {f : α → StateM Temporaries β} {names : α → List String}
    {names' : β → List String} (rest : α → β → List String) (hx : Draws x names)
    (hf : ∀ a, Draws (f a) (rest a))
    (split : ∀ a s, (names' (f a s).1).Sublist (names a ++ rest a (f a s).1)) :
    Draws (x >>= f) names' where
  mono s := List.Subset.trans (hx.mono s) ((hf _).mono _)
  taken s name hn := by
    rcases List.mem_append.1 ((split _ _).subset hn) with hn | hn
    · exact (hf _).mono _ (hx.taken s name hn)
    · exact (hf _).taken _ name hn
  fresh s name hn := by
    rcases List.mem_append.1 ((split _ _).subset hn) with hn | hn
    · exact hx.fresh s name hn
    · obtain ⟨free, named⟩ := (hf _).fresh _ name hn
      exact ⟨fun taken => free (hx.mono s taken), named⟩
  nodup s := by
    refine List.Nodup.sublist (split _ _) (List.nodup_append.2 ⟨hx.nodup s, (hf _).nodup _, ?_⟩)
    intro name hn other ho e
    exact ((hf _).fresh _ other ho).1 (e ▸ hx.taken s name hn)

end Draws

section

variable (span : Span)

theorem captureOperand_draws (e : Expr) : Draws (captureOperand span e) (·.2.names) :=
  (Draws.fresh_name e.nameHint).map
    (fun name => ((.ident span name, ⟨[name], [e]⟩) : Expr × Captured)) fun _ => rfl

theorem captureCalling_draws (e : Expr) : Draws (captureCalling span e) (·.2.names) := by
  unfold captureCalling
  split
  · exact .pure _ rfl
  · exact captureOperand_draws span e

theorem capturePlace_draws (e : Expr) : Draws (capturePlace span e) (·.2.names) := by
  induction e using capturePlace.induct with
  | case1 _ inner ih => exact ih
  | case2 at_ base i =>
    refine .bind (fun a b => b.2.names.drop a.2.names.length) (captureCalling_draws span base)
      (fun a => ?_) fun a s => ?_
    · exact (captureCalling_draws span i).map
        (fun r => ((.index at_ a.1 r.1, a.2 ++ r.2) : Expr × Captured)) fun r => by simp
    · change ((a.2 ++ (captureCalling span i s).1.2).names).Sublist (a.2.names ++
        (a.2 ++ (captureCalling span i s).1.2).names.drop a.2.names.length)
      simp
  | case3 at_ base member =>
    exact (captureCalling_draws span base).map
      (fun r => ((.select at_ r.1 member, r.2) : Expr × Captured)) fun _ => rfl
  | case4 at_ inner =>
    exact (captureCalling_draws span inner).map
      (fun r => ((.unary at_ .deref r.1, r.2) : Expr × Captured)) fun _ => rfl
  | case5 e _ _ _ _ =>
    rw [capturePlace]
    · exact .pure _ rfl
    all_goals assumption

theorem captureTarget_draws (written : List String) (places : Bool) (t : Target) :
    Draws (captureTarget span written places t) (·.2.names) := by
  cases t with
  | field receiver info =>
    rw [captureTarget]
    split
    · exact .pure _ rfl
    · exact (captureOperand_draws span receiver).map
        (fun r => ((.field r.1 info, r.2) : Target × Captured)) fun _ => rfl
  | plain place =>
    rw [captureTarget]
    split
    · exact (capturePlace_draws span place).map
        (fun r => ((.plain r.1, r.2) : Target × Captured)) fun _ => rfl
    · exact .pure _ rfl
  | blank => exact .pure _ rfl

theorem captureValue_draws (hint : String) (value : Option TypedExpr) :
    Draws (captureValue span hint value) (·.2.names) := by
  cases value with
  | none =>
    exact (Draws.fresh_name hint).map
      (fun name => ((⟨.ident span name, none⟩, ⟨[name], []⟩) : TypedExpr × Captured)) fun _ => rfl
  | some value =>
    rw [captureValue]
    split
    · exact .pure _ rfl
    · exact (Draws.fresh_name hint).map
        (fun name => ((⟨.ident span name, value.type⟩, ⟨[name], [value.expr]⟩) :
          TypedExpr × Captured)) fun _ => rfl

end

-- The temporaries among what is captured.
def Captured.temps (c : Captured) : List String :=
  c.names.filter (· ≠ "_")

theorem Captured.append_temps (a b : Captured) : (a ++ b).temps = a.temps ++ b.temps :=
  List.filter_append ..

theorem planTarget_draws (settings : Settings) (span : Span) (inPlace : Bool) (t : Target)
    (value : Option TypedExpr) :
    Draws (planTarget settings span inPlace t value) (·.captured.temps) := by
  have captured (hint : String) {g : TypedExpr × Captured → TargetPlan}
      (same : ∀ r, (g r).captured = r.2) :
      Draws (do return g (← captureValue span hint value)) (·.captured.temps) := by
    have all : Draws (do return g (← captureValue span hint value)) (·.captured.names) :=
      (captureValue_draws span hint value).map g fun r => by rw [same]
    exact all.sublist fun _ => List.filter_sublist
  cases t with
  | field receiver info =>
    have h := captured info.name (g := fun r =>
      { captured := r.2, mutator := some (info.write settings receiver r.1 span) }) fun _ => rfl
    cases inPlace <;> cases value <;> exact h
  | plain place =>
    have h := captured place.nameHint (g := fun r =>
      { captured := r.2, plain := some (place, r.1.expr) }) fun _ => rfl
    cases inPlace <;> cases value <;> first | exact h | exact .pure _ rfl
  | blank =>
    have discarded : (discard value).temps = [] := by
      unfold discard
      split
      · rfl
      · split <;> rfl
    cases inPlace <;> cases value <;> first | exact .pure _ discarded | exact .pure _ rfl

section

variable (settings : Settings) (span : Span)

-- The plans of targets, each with its value.
def planPairs (inPlace : Bool) (pairs : List (Target × Option TypedExpr)) :
    StateM Temporaries (List TargetPlan) :=
  pairs.mapM fun (target, value) => planTarget settings span inPlace target value

theorem planPairs_cons (inPlace : Bool) (t : Target) (v : Option TypedExpr)
    (pairs : List (Target × Option TypedExpr)) (s : Temporaries) :
    (planPairs settings span inPlace ((t, v) :: pairs) s).1 =
      (planTarget settings span inPlace t v s).1 ::
        (planPairs settings span inPlace pairs (planTarget settings span inPlace t v s).2).1 := by
  rw [planPairs, List.mapM_cons]
  rfl

theorem planParts_eq (ts : List Target) (vs : List TypedExpr) (s : Temporaries) :
    planParts settings span ts vs s =
      planPairs settings span (ts.any (·.isPlain) && planCallFree ts vs)
        (((planOperands span ts vs s).1.map (·.1)).zip (planSources ts vs))
        (planOperands span ts vs s).2 := rfl

-- The names of all temporaries that a plan draws, in order.
def planTemps (ts : List Target) (vs : List TypedExpr) (s : Temporaries) : List String :=
  (planOperands span ts vs s).1.flatMap (·.2.names) ++
    (planParts settings span ts vs s).1.flatMap (·.captured.temps)

theorem planParts_draws (ts : List Target) (vs : List TypedExpr) (s : Temporaries) :
    s.taken ⊆ (planParts settings span ts vs s).2.taken ∧
      (∀ x ∈ planTemps settings span ts vs s, x ∉ s.taken ∧ x ≠ "_") ∧
      (planTemps settings span ts vs s).Nodup := by
  have operands : Draws (planOperands span ts vs) (·.flatMap (·.2.names)) :=
    .mapM (fun t => captureTarget_draws span _ _ t) ts
  let inPlace := ts.any (·.isPlain) && planCallFree ts vs
  have parts (pairs : List (Target × Option TypedExpr)) :
      Draws (planPairs settings span inPlace pairs) (·.flatMap (·.captured.temps)) :=
    .mapM (fun (t, v) => planTarget_draws settings span _ t v) pairs
  have all : Draws (do
      let operands ← planOperands span ts vs
      let parts ← planPairs settings span inPlace ((operands.map (·.1)).zip (planSources ts vs))
      return (operands, parts))
      fun r => r.1.flatMap (·.2.names) ++ r.2.flatMap (·.captured.temps) := by
    refine .bind (fun _ r => r.2.flatMap (·.captured.temps)) operands (fun a => ?_) fun a s => ?_
    · exact (parts _).map (fun ps => (a, ps)) fun _ => rfl
    · exact List.Sublist.refl _
  exact ⟨all.mono s, all.fresh s, all.nodup s⟩

-- All that is captured goes into these temporaries, as far as it is not discarded.
theorem temps_captured (ts : List Target) (vs : List TypedExpr) (s : Temporaries) :
    ((planOperands span ts vs s).1.foldl (· ++ ·.2) ({} : Captured)).temps ++
      ((planParts settings span ts vs s).1.foldl (· ++ ·.captured) ({} : Captured)).temps =
        planTemps settings span ts vs s := by
  obtain ⟨-, fresh, -⟩ := planParts_draws settings span ts vs s
  simp only [Captured.temps, Captured.foldl_append_names, List.nil_append]
  rw [List.filter_flatMap (g := fun p : TargetPlan => p.captured.names)]
  refine congrArg (· ++ _) (List.filter_eq_self.2 fun x hx => ?_)
  simpa using (fresh x (List.mem_append_left _ hx)).2

end

end FieldAccess
