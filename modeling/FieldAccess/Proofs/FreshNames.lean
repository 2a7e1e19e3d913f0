import FieldAccess.Naming
import Mathlib.Data.List.Nodup
import Mathlib.Data.List.Perm.Subperm

namespace FieldAccess.Naming

theorem toList_numbered (base : String) (n : Nat) :
    (base ++ toString n).toList = base.toList ++ Nat.toDigits 10 n := by
  rw [String.toList_append, Nat.toString_eq_ofList_toDigits, String.toList_ofList]

-- Numbered names differ from one another.
theorem nodup_candidates (base : String) (count : Nat) : (candidates base count).Nodup := by
  have inj : Function.Injective fun n : Nat => base ++ toString n := by
    intro a b e
    have same := congrArg String.toList e
    simp only [toList_numbered, List.append_cancel_left_eq] at same
    have digits := congrArg (Nat.ofDigitChars 10 · 0) same
    simpa using digits
  rw [candidates, List.nodup_cons]
  refine ⟨fun h => ?_, List.Nodup.map inj List.nodup_range'⟩
  obtain ⟨n, _, e⟩ := List.mem_map.1 h
  have same := congrArg String.toList e
  simp at same

theorem length_candidates (base : String) (count : Nat) :
    (candidates base count).length = count + 1 := by
  simp [candidates]

-- There are more candidates than names that are taken.
theorem exists_candidate (base : String) (taken : List String) :
    ∃ name ∈ candidates base taken.length, name ∉ taken := by
  by_contra h
  have sub : candidates base taken.length ⊆ taken := fun name hn => by
    by_contra free
    exact h ⟨name, hn, free⟩
  have le := (List.subperm_of_subset (nodup_candidates base taken.length) sub).length_le
  rw [length_candidates] at le
  omega

theorem unique_spec (base : String) (taken : List String) :
    unique base taken ∈ candidates base taken.length ∧ unique base taken ∉ taken := by
  obtain ⟨name, mem, free⟩ := exists_candidate base taken
  rw [unique]
  cases hf : (candidates base taken.length).find? (!taken.contains ·) with
  | none => simpa [free] using List.find?_eq_none.1 hf name mem
  | some found => exact ⟨List.mem_of_find?_eq_some hf, by simpa using List.find?_some hf⟩

theorem unique_not_mem (base : String) (taken : List String) : unique base taken ∉ taken :=
  (unique_spec base taken).2

end FieldAccess.Naming
