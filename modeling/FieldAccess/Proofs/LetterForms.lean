import FieldAccess.Proofs.TemporaryNames

namespace FieldAccess.Text

-- One of the intervals holds all from `lo` to `hi`.
def held (lo hi : Nat) : List (Nat × Nat) → Bool
  | [] => false
  | (a, b) :: rest => (Nat.ble a lo && Nat.ble hi b) || held lo hi rest

-- None of the intervals holds any from `lo` to `hi`.
def apart (lo hi : Nat) : List (Nat × Nat) → Bool
  | [] => true
  | (a, b) :: rest => (Nat.blt hi a || Nat.blt b lo) && apart lo hi rest

section

variable {lo hi n : Nat} {ranges : List (Nat × Nat)}

theorem inRanges_of_held (h : held lo hi ranges = true) (le : lo ≤ n) (ge : n ≤ hi) :
    inRanges n ranges = true := by
  induction ranges with
  | nil => cases h
  | cons r rest ih =>
    simp only [held, Bool.or_eq_true, Bool.and_eq_true, Nat.ble_eq] at h
    simp only [inRanges, Bool.or_eq_true, Bool.and_eq_true, decide_eq_true_eq]
    exact h.imp (fun inside => ⟨Nat.le_trans inside.1 le, Nat.le_trans ge inside.2⟩) ih

theorem not_inRanges_of_apart (h : apart lo hi ranges = true) (le : lo ≤ n) (ge : n ≤ hi) :
    inRanges n ranges = false := by
  induction ranges with
  | nil => rfl
  | cons r rest ih =>
    simp only [apart, Bool.and_eq_true, Bool.or_eq_true, Nat.blt_eq] at h
    simp only [inRanges, Bool.or_eq_false_iff, Bool.and_eq_false_iff, decide_eq_false_iff_not]
    exact ⟨by omega, ih h.2⟩

theorem inRanges_iff : inRanges n ranges = true ↔ ∃ r ∈ ranges, r.1 ≤ n ∧ n ≤ r.2 := by
  induction ranges with
  | nil => simp [inRanges]
  | cons r rest ih => simp [inRanges, ih]

theorem inRanges_of_sublist {more : List (Nat × Nat)} (sub : ranges.Sublist more)
    (h : inRanges n ranges = true) : inRanges n more = true := by
  obtain ⟨r, mem, inside⟩ := inRanges_iff.1 h
  exact inRanges_iff.2 ⟨r, sub.subset mem, inside⟩

end

namespace CaseRun

variable {run : CaseRun} {n k : Nat}

-- What the run moves a code point to.
def target (run : CaseRun) (n : Nat) : Nat :=
  (n + run.distance).toNat

-- Every code point that the run moves ends where `test` has found all to be well.
def lands (run : CaseRun) (test : Nat → Nat → Bool) : Bool :=
  test (run.target run.first) (run.target run.last) ||
    (List.range ((run.last - run.first) / run.stride + 1)).all fun i =>
      test (run.target (run.first + i * run.stride)) (run.target (run.first + i * run.stride))

theorem lands_spec {test : Nat → Nat → Bool} {P : Nat → Prop}
    (sound : ∀ lo hi k, test lo hi = true → lo ≤ k → k ≤ hi → P k) (h : run.lands test = true)
    (first : run.first ≤ n) (last : n ≤ run.last) (step : (n - run.first) % run.stride = 0) :
    P (run.target n) := by
  rcases Bool.or_eq_true .. ▸ h with whole | each
  · refine sound _ _ _ whole ?_ ?_
    all_goals
      unfold target
      omega
  · have at_ : run.first + (n - run.first) / run.stride * run.stride = n := by
      have := Nat.div_add_mod' (n - run.first) run.stride
      omega
    have le : (n - run.first) / run.stride ≤ (run.last - run.first) / run.stride :=
      Nat.div_le_div_right (by omega)
    have one := List.all_eq_true.1 each _ (List.mem_range.2 (Nat.lt_succ_of_le le))
    rw [at_] at one
    exact sound _ _ _ one (Nat.le_refl _) (Nat.le_refl _)

theorem image?_lands {runs : List CaseRun} {test : Nat → Nat → Bool} {P : Nat → Prop}
    (sound : ∀ lo hi k, test lo hi = true → lo ≤ k → k ≤ hi → P k)
    (h : runs.all (·.lands test) = true) (is : image? n runs = some k) : P k := by
  obtain ⟨run, mem, ⟨first, last, step⟩, rfl⟩ := exists_of_image? is
  exact lands_spec sound (List.all_eq_true.1 h run mem) first last step

end CaseRun

-- The letters from U+0080 on that have another case or are one.
def caseRanges : List (Nat × Nat) :=
  [(0xb5, 0xb5), (0xc0, 0xd6), (0xd8, 0xf6), (0xf8, 0x2c1), (0x345, 0x345), (0x370, 0x374),
   (0x376, 0x377), (0x37a, 0x37d), (0x37f, 0x37f), (0x386, 0x386), (0x388, 0x38a), (0x38c, 0x38c),
   (0x38e, 0x3a1), (0x3a3, 0x3f5), (0x3f7, 0x481), (0x48a, 0x52f), (0x531, 0x556), (0x560, 0x588),
   (0x10a0, 0x10c5), (0x10c7, 0x10c7), (0x10cd, 0x10cd), (0x10d0, 0x10fa), (0x10fc, 0x1248),
   (0x13a0, 0x13f5), (0x13f8, 0x13fd), (0x1c80, 0x1c88), (0x1c90, 0x1cba), (0x1cbd, 0x1cbf),
   (0x1d00, 0x1dbf), (0x1e00, 0x1f15), (0x1f18, 0x1f1d), (0x1f20, 0x1f45), (0x1f48, 0x1f4d),
   (0x1f50, 0x1f57), (0x1f59, 0x1f59), (0x1f5b, 0x1f5b), (0x1f5d, 0x1f5d), (0x1f5f, 0x1f7d),
   (0x1f80, 0x1fb4), (0x1fb6, 0x1fbc), (0x1fbe, 0x1fbe), (0x1fc2, 0x1fc4), (0x1fc6, 0x1fcc),
   (0x1fd0, 0x1fd3), (0x1fd6, 0x1fdb), (0x1fe0, 0x1fec), (0x1ff2, 0x1ff4), (0x1ff6, 0x1ffc),
   (0x2126, 0x2126), (0x212a, 0x212d), (0x212f, 0x2139), (0x214e, 0x214e), (0x2160, 0x2188),
   (0x24b6, 0x24e9), (0x2c00, 0x2ce4), (0x2ceb, 0x2cee), (0x2cf2, 0x2cf3), (0x2d00, 0x2d25),
   (0x2d27, 0x2d27), (0x2d2d, 0x2d2d), (0xa640, 0xa66e), (0xa67f, 0xa6ef), (0xa722, 0xa788),
   (0xa78b, 0xa7ca), (0xa7d0, 0xa7d1), (0xa7d5, 0xa7d9), (0xa7f2, 0xa805), (0xab30, 0xab5a),
   (0xab70, 0xabea), (0xfb00, 0xfb06), (0xfb13, 0xfb17), (0xff21, 0xff3a), (0xff41, 0xff5a),
   (0x10400, 0x1049d), (0x104b0, 0x104d3), (0x104d8, 0x104fb), (0x10570, 0x1057a),
   (0x1057c, 0x1058a), (0x1058c, 0x10592), (0x10594, 0x10595), (0x10597, 0x105a1),
   (0x105a3, 0x105b1), (0x105b3, 0x105b9), (0x105bb, 0x105bc), (0x10c80, 0x10cb2),
   (0x10cc0, 0x10cf2), (0x118a0, 0x118df), (0x16e40, 0x16e7f), (0x1e900, 0x1e943)]

-- The letters one of whose cases holds a combining mark.
def markedRanges : List (Nat × Nat) :=
  [(0x130, 0x130), (0x1f0, 0x1f0), (0x390, 0x390), (0x3b0, 0x3b0), (0x1e96, 0x1e99),
   (0x1f50, 0x1f50), (0x1f52, 0x1f52), (0x1f54, 0x1f54), (0x1f56, 0x1f56), (0x1fb6, 0x1fb7),
   (0x1fc6, 0x1fc7), (0x1fd2, 0x1fd3), (0x1fd6, 0x1fd7), (0x1fe2, 0x1fe4), (0x1fe6, 0x1fe7),
   (0x1ff6, 0x1ff7)]

-- All letters that have another case or are one.
def letterRanges : List (Nat × Nat) :=
  (0x41, 0x5a) :: (0x61, 0x7a) :: caseRanges

-- All from `lo` to `hi` are letters, and no case of theirs holds a mark.
def lettered (lo hi : Nat) : Bool :=
  held lo hi letterRanges && apart lo hi markedRanges

theorem runs_land : ∀ runs ∈ [upperRuns, lowerRuns], runs.all (·.lands lettered) = true := by
  decide +kernel

theorem expansions_land : upperExpansions.all (fun e =>
    inRanges e.1 markedRanges || e.2.all fun n => lettered n n) = true := by
  decide

theorem caseRanges_sublist : caseRanges.Sublist alphabeticRanges := by
  decide +kernel

theorem isAlphabetic_ofNat {n : Nat} (h : inRanges n letterRanges = true) :
    (Char.ofNat n).toNat = n ∧ isAlphabetic (Char.ofNat n) = true := by
  have valid : ∀ r ∈ letterRanges, r.2 < 0xd800 ∨ 0xdfff < r.1 ∧ r.2 < 0x110000 := by
    decide
  have is : (Char.ofNat n).toNat = n := by
    obtain ⟨r, mem, le, ge⟩ := inRanges_iff.1 h
    have ok : n.isValidChar := by
      have := valid r mem
      unfold Nat.isValidChar
      omega
    rw [Char.ofNat, dif_pos ok]
    rfl
  refine ⟨is, ?_⟩
  simp only [letterRanges, inRanges, Bool.or_eq_true, Bool.and_eq_true, decide_eq_true_eq] at h
  unfold isAlphabetic
  rw [is]
  rcases h with upper | lower | other
  · rw [if_pos (by omega)]
    exact Bool.or_eq_true_iff.2 (.inl (isUpper_iff.2 (is.symm ▸ upper)))
  · rw [if_pos (by omega)]
    exact Bool.or_eq_true_iff.2 (.inr (isLower_iff.2 (is.symm ▸ lower)))
  · have high : ∀ r ∈ caseRanges, 0x80 ≤ r.1 := by decide
    obtain ⟨r, mem, le, _⟩ := inRanges_iff.1 other
    have := high r mem
    rw [if_neg (by omega)]
    exact inRanges_of_sublist caseRanges_sublist other

-- No case of the character holds a mark.
def Steady (c : Char) : Prop :=
  inRanges c.toNat markedRanges = false

instance {c : Char} : Decidable (Steady c) :=
  inferInstanceAs (Decidable (_ = false))

-- What may stand for a character in another case: itself or a letter.
def IsForm (c d : Char) : Prop :=
  Steady d ∧ (d = c ∨ isAlphabetic d = true)

instance {c d : Char} : Decidable (IsForm c d) :=
  inferInstanceAs (Decidable (_ ∧ _))

variable {c : Char}

theorem isForm_ofNat {n : Nat}
    (h : inRanges n letterRanges = true ∧ inRanges n markedRanges = false) :
    IsForm c (Char.ofNat n) := by
  obtain ⟨is, letter⟩ := isAlphabetic_ofNat h.1
  refine ⟨?_, .inr letter⟩
  rw [Steady, is]
  exact h.2

theorem lettered_spec (lo hi n : Nat) (h : lettered lo hi = true) (le : lo ≤ n) (ge : n ≤ hi) :
    inRanges n letterRanges = true ∧ inRanges n markedRanges = false := by
  rw [lettered, Bool.and_eq_true] at h
  exact ⟨inRanges_of_held h.1 le ge, not_inRanges_of_apart h.2 le ge⟩

theorem isForm_image {runs : List CaseRun} (land : runs.all (·.lands lettered) = true)
    (h : Steady c) : IsForm c (((CaseRun.image? c.toNat runs).map Char.ofNat).getD c) := by
  cases is : CaseRun.image? c.toNat runs with
  | none => exact ⟨h, .inl rfl⟩
  | some n => exact isForm_ofNat (CaseRun.image?_lands lettered_spec land is)

theorem isForm_upper (h : Steady c) : ∀ d ∈ upper c, IsForm c d := by
  unfold upper
  split
  case isTrue ascii =>
    exact List.forall_mem_singleton.2
      (forall_ascii (P := fun c => IsForm c c.toUpper) (by decide) ascii)
  case isFalse high =>
    split
    case h_1 code image hi =>
      have land := List.all_eq_true.1 expansions_land _ (List.mem_of_find?_eq_some hi)
      have same : code = c.toNat := by simpa using List.find?_some hi
      rw [same, h, Bool.false_or] at land
      refine List.forall_mem_map.2 fun n hn => isForm_ofNat ?_
      exact lettered_spec n n n (List.all_eq_true.1 land n hn) (Nat.le_refl n) (Nat.le_refl n)
    case h_2 => exact List.forall_mem_singleton.2 (isForm_image (runs_land _ (by simp)) h)

theorem isForm_lower (h : Steady c) : ∀ d ∈ lower c, IsForm c d := by
  unfold lower
  split
  case isTrue ascii =>
    exact List.forall_mem_singleton.2
      (forall_ascii (P := fun c => IsForm c c.toLower) (by decide) ascii)
  case isFalse high =>
    split
    case isTrue dotted =>
      subst dotted
      exact absurd h (by decide)
    case isFalse => exact List.forall_mem_singleton.2 (isForm_image (runs_land _ (by simp)) h)

-- In either case the character is spelled with letters and numerals alone.
def KeepsLetters (c : Char) : Prop :=
  ∀ d ∈ upper c ++ lower c, isAlphanumeric d = true

instance : Decidable (KeepsLetters c) :=
  List.decidableBAll (isAlphanumeric · = true) (upper c ++ lower c)

theorem not_isAlphanumeric_mark {d : Char} (le : 0x300 ≤ d.toNat) (ge : d.toNat ≤ 0x342) :
    isAlphanumeric d = false := by
  have letters : apart 0x300 0x342 alphabeticRanges = true := by decide +kernel
  have numerals : apart 0x300 0x342 numericRanges = true := by decide
  unfold isAlphanumeric
  rw [if_neg (by omega), not_inRanges_of_apart letters le ge, not_inRanges_of_apart numerals le ge]
  rfl

theorem steady_of_keepsLetters (h : KeepsLetters c) : Steady c := by
  have marked : ∀ n ∈ markedRanges.flatMap fun r => List.range' r.1 (r.2 - r.1 + 1),
      (upper (Char.ofNat n) ++ lower (Char.ofNat n)).any
        (fun d => 0x300 ≤ d.toNat && d.toNat ≤ 0x342) = true := by
    decide
  rw [Steady, Bool.eq_false_iff]
  intro inside
  obtain ⟨r, mem, le, ge⟩ := inRanges_iff.1 inside
  obtain ⟨d, hd, mark⟩ := List.any_eq_true.1 (marked c.toNat
    (List.mem_flatMap.2 ⟨r, mem, List.mem_range'_1.2 ⟨le, by omega⟩⟩))
  rw [Char.ofNat_toNat] at hd
  simp only [Bool.and_eq_true, decide_eq_true_eq] at mark
  obtain ⟨first, last⟩ := mark
  exact Bool.false_ne_true ((not_isAlphanumeric_mark first last).symm.trans (h d hd))

end FieldAccess.Text
