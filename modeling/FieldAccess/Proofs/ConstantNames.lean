import Mathlib.Data.List.Induction
import FieldAccess.Proofs.CatalogBuild
import FieldAccess.Text.Words

namespace FieldAccess

namespace Text

-- A text that no variable of generated code is equal to.
def StartsHigh (text : List Char) : Prop :=
  ∀ c ∈ text.head?, c.isLower = false

theorem StartsHigh.nil : StartsHigh [] :=
  nofun

theorem StartsHigh.append {a b : List Char} (ha : StartsHigh a) (hb : a = [] → StartsHigh b) :
    StartsHigh (a ++ b) := by
  cases a with
  | nil => exact hb rfl
  | cons c rest => exact ha

theorem isLower_iff {c : Char} : c.isLower = true ↔ 0x61 ≤ c.toNat ∧ c.toNat ≤ 0x7a := by
  change (decide (0x61 ≤ c.val) && decide (c.val ≤ 0x7a)) = true ↔ _
  rw [Bool.and_eq_true, decide_eq_true_eq, decide_eq_true_eq]
  exact and_congr UInt32.le_iff_toNat_le UInt32.le_iff_toNat_le

theorem not_isLower_ofNat {n : Nat} (h : n < 0x61 ∨ 0x7a < n) : (Char.ofNat n).isLower = false := by
  by_cases valid : n.isValidChar
  · rw [Char.ofNat, dif_pos valid, Bool.eq_false_iff, Ne, isLower_iff]
    change ¬(0x61 ≤ n ∧ n ≤ 0x7a)
    omega
  · rw [Char.ofNat, dif_neg valid]
    rfl

theorem not_isLower_toUpper (c : Char) : c.toUpper.isLower = false := by
  unfold Char.toUpper
  split
  case isTrue lower =>
    rw [Bool.eq_false_iff, Ne, isLower_iff]
    change ¬(0x61 ≤ (c.val + 4294967264).toNat ∧ (c.val + 4294967264).toNat ≤ 0x7a)
    rw [UInt32.toNat_add]
    change ¬(0x61 ≤ (c.val.toNat + 4294967264) % 4294967296 ∧
      (c.val.toNat + 4294967264) % 4294967296 ≤ 0x7a)
    have first : 97 ≤ c.val.toNat := lower.1
    have last : c.val.toNat ≤ 122 := lower.2
    omega
  case isFalse other =>
    rw [Bool.eq_false_iff, Ne, isLower_iff]
    exact other

theorem image?_of_runs {runs : List CaseRun} {n k low high : Nat} (pos : 0 < low)
    (away : ∀ run ∈ runs, run.last + run.distance < low ∨ high < run.first + run.distance)
    (h : CaseRun.image? n runs = some k) : k < low ∨ high < k := by
  obtain ⟨run, mem, inRun, rfl⟩ := CaseRun.exists_of_image? h
  have := away run mem
  omega

theorem upper_startsHigh (c : Char) : StartsHigh (upper c) ∧ upper c ≠ [] := by
  unfold upper
  split
  · exact ⟨by simp [StartsHigh, not_isLower_toUpper c], by simp⟩
  case isFalse high =>
    split
    case h_1 image hi =>
      have all : ∀ e ∈ upperExpansions, e.2 ≠ [] ∧ ∀ n ∈ e.2.head?, n < 0x61 ∨ 0x7a < n := by decide
      obtain ⟨filled, head⟩ := all _ (List.mem_of_find?_eq_some hi)
      refine ⟨fun d hd => ?_, by simpa using filled⟩
      rw [List.head?_map] at hd
      obtain ⟨n, hn, e⟩ := Option.map_eq_some_iff.1 hd
      exact e ▸ not_isLower_ofNat (head n hn)
    case h_2 =>
      refine ⟨fun d hd => ?_, by simp⟩
      obtain rfl : _ = d := Option.some.inj hd
      cases hk : CaseRun.image? c.toNat upperRuns with
      | none =>
        rw [Option.map_none, Option.getD_none, Bool.eq_false_iff, Ne, isLower_iff]
        omega
      | some k => exact not_isLower_ofNat (image?_of_runs (by decide) (by decide +kernel) hk)

theorem upperCamel_startsHigh (text : String) : StartsHigh (upperCamel text).toList := by
  rw [upperCamel, String.toList_ofList]
  induction words text.toList with
  | nil => exact .nil
  | cons word rest ih =>
    rw [List.flatMap_cons]
    refine .append ?_ fun _ => ih
    cases word with
    | nil => exact .nil
    | cons c rest =>
      obtain ⟨high, filled⟩ := upper_startsHigh c
      exact high.append fun none => absurd none filled

end Text

theorem Text.toNat_le_of_isDigit {c : Char} (h : c.isDigit = true) : c.toNat ≤ 0x39 := by
  simp only [Char.isDigit, Bool.and_eq_true, decide_eq_true_eq] at h
  exact h.2

theorem Naming.candidates_startsHigh {base : String} (h : Text.StartsHigh base.toList) (count : Nat) :
    ∀ name ∈ candidates base count, Text.StartsHigh name.toList := by
  rw [candidates, List.forall_mem_cons]
  refine ⟨h, fun name mem => ?_⟩
  obtain ⟨n, _, e⟩ := List.mem_map.1 mem
  rw [← e, toList_numbered]
  refine h.append fun _ c hc => ?_
  have digit : c.isDigit = true :=
    Nat.isDigit_of_mem_toDigits (by decide) (by decide) (List.mem_of_mem_head? hc)
  have le := Text.toNat_le_of_isDigit digit
  rw [Bool.eq_false_iff, Ne, Text.isLower_iff]
  omega

namespace EnumTable

theorem addConsts_startsHigh (t : EnumTable) {wanted : List String}
    (h : ∀ const ∈ wanted, Text.StartsHigh const.toList) :
    ∀ const ∈ (t.addConsts wanted).1, Text.StartsHigh const.toList := by
  induction wanted generalizing t with
  | nil => simp [addConsts]
  | cons name rest ih =>
    rw [addConsts]
    simp only [List.forall_mem_cons] at h ⊢
    exact ⟨Naming.candidates_startsHigh h.1 _ _ (Naming.unique_spec ..).1, ih _ h.2⟩

-- An entry was made for one of the requests, with constants near the ones that it wants.
def MadeFor (requests : List EnumRequest) (entry : EnumEntry) : Prop :=
  ∃ entity field spec, EnumRequest.register entity field spec ∈ requests ∧
    entry.labels = spec.labels ∧ ∃ t : EnumTable, entry.constNames = (t.addConsts spec.wantedConsts).1

theorem MadeFor.append {requests : List EnumRequest} {entry : EnumEntry} (h : MadeFor requests entry)
    (more : List EnumRequest) : MadeFor (requests ++ more) entry :=
  have ⟨entity, field, spec, mem, h⟩ := h
  ⟨entity, field, spec, List.mem_append_left _ mem, h⟩

theorem entries_after (requests : List EnumRequest) :
    ∀ entry ∈ (after requests).entries, MadeFor requests entry := by
  induction requests using List.reverseRecOn with
  | nil => simp [after]
  | append_singleton rest r ih =>
    have later : ∀ entry ∈ (after rest).entries, MadeFor (rest ++ [r]) entry :=
      fun entry mem => (ih entry mem).append _
    rw [after_append, List.foldl_cons, List.foldl_nil]
    cases r with
    | reserve name => exact later
    | register entity field spec =>
      rw [handle]
      rcases register_cases (after rest) entity field spec with
        ⟨_, _, e⟩ | ⟨_, name, _, ⟨_, _, _, _, e⟩ | ⟨_, _, _, _, e⟩⟩
      · exact e ▸ later
      · exact e ▸ later
      · rw [e, own, addEntry]
        dsimp only
        rw [(addConsts_spec _ _).entries]
        intro entry mem
        rcases List.mem_append.1 mem with old | new
        · exact later entry old
        · obtain rfl := List.mem_singleton.1 new
          exact ⟨entity, field, spec, by simp, rfl, _, rfl⟩

end EnumTable

-- Constants that are not declared are made from the labels, one from each.
theorem Catalog.entries_build {schema : Schema} {settings : Settings}
    (implicit : ∀ e ∈ schema.entities, ∀ f ∈ e.fields, ∀ spec, f.enumeration = some spec →
      spec.constNames = none) :
    ∀ entry ∈ (build schema settings {}).enums.entries,
      entry.constNames.length = entry.labels.length ∧
        ∀ const ∈ entry.constNames, Text.StartsHigh const.toList := by
  obtain ⟨requests, e, from_⟩ := build_requests schema settings
  rw [e]
  intro entry mem
  obtain ⟨entity, field, spec, hr, labels, t, consts⟩ := EnumTable.entries_after _ entry mem
  have declared : spec.constNames = none := by
    rcases List.mem_append.1 hr with hr | hr
    · simp at hr
    · obtain ⟨e, he, f, hf, spec', hs, same⟩ := from_ _ hr
      cases same
      exact implicit e he f hf spec hs
  have wanted : spec.wantedConsts = spec.labels.map Text.upperCamel := by
    rw [EnumSpec.wantedConsts, declared, Option.getD_none]
  rw [consts]
  constructor
  · rw [(EnumTable.addConsts_spec _ _).count, wanted, labels, List.length_map]
  · refine EnumTable.addConsts_startsHigh t fun const hc => ?_
    rw [wanted] at hc
    obtain ⟨label, _, e⟩ := List.mem_map.1 hc
    exact e ▸ Text.upperCamel_startsHigh label

end FieldAccess
