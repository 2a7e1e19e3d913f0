import FieldAccess.Proofs.EnumRegistration
import Mathlib.Order.Bounds.Defs

namespace FieldAccess

namespace Naming

variable {refused refused' : String → Prop} {base name : String}

-- The names that a search tries: `base`, `base2`, `base3`, …
def attempt (base : String) : Nat → String
  | 0 => base
  | n + 1 => base ++ toString (n + 2)

-- A search that stands at a candidate, and has a number for the next one, ends with a name.
inductive Ends (refused : String → Prop) (base : String) : String → Nat → String → Prop
  | accepted {candidate : String} {next : Nat} (free : ¬refused candidate) :
      Ends refused base candidate next candidate
  | refused {candidate name : String} {next : Nat} (taken : refused candidate)
      (later : Ends refused base (base ++ toString next) (next + 1) name) :
      Ends refused base candidate next name

theorem Ends.unique {candidate name' : String} {next : Nat}
    (h : Ends refused base candidate next name) (h' : Ends refused base candidate next name') :
    name' = name := by
  induction h with
  | accepted free =>
    cases h' with
    | accepted => rfl
    | refused taken => exact absurd taken free
  | refused taken _ ih =>
    cases h' with
    | accepted free => exact absurd taken free
    | refused _ later => exact ih later

def IsFirst (refused : String → Prop) (base name : String) : Prop :=
  ∃ n, name = attempt base n ∧ ¬refused name ∧ ∀ k < n, refused (attempt base k)

-- The search ends, with this name alone, and no name before it could be had.
structure Finds (refused : String → Prop) (base name : String) : Prop where
  ends : ∀ other, Ends refused base base 2 other ↔ other = name
  first : IsFirst refused base name

-- From each attempt before the last the search gets there.
theorem Ends.of_attempts {n : Nat} (free : ¬refused (attempt base n))
    (before : ∀ k < n, refused (attempt base k)) {k m : Nat} (h : k + m = n) :
    Ends refused base (attempt base k) (k + 2) (attempt base n) := by
  induction m generalizing k with
  | zero =>
    obtain rfl : k = n := h
    exact .accepted free
  | succ m ih =>
    have later : Ends refused base (attempt base (k + 1)) (k + 3) (attempt base n) :=
      ih (by omega)
    exact .refused (before k (by omega)) later

theorem IsFirst.finds (h : IsFirst refused base name) : Finds refused base name := by
  refine ⟨fun other => ?_, h⟩
  obtain ⟨n, rfl, free, before⟩ := h
  have ends : Ends refused base base 2 (attempt base n) :=
    .of_attempts free before (Nat.zero_add n)
  constructor
  · exact ends.unique
  · rintro rfl
    exact ends

theorem IsFirst.congr (same : ∀ name, refused name ↔ refused' name) (h : IsFirst refused base name) :
    IsFirst refused' base name := by
  obtain rfl : refused = refused' := funext fun name => propext (same name)
  exact h

theorem getElem?_candidates {count n : Nat} (h : n ≤ count) :
    (candidates base count)[n]? = some (attempt base n) := by
  cases n with
  | zero => rfl
  | succ n =>
    rw [candidates, List.getElem?_cons_succ, List.getElem?_map, List.getElem?_range' h]
    simp [attempt, Nat.add_comm]

-- The bounded search looks at the attempts in their order.
theorem isFirst_of_find? {p : String → Bool} {count : Nat}
    (h : (candidates base count).find? p = some name) :
    IsFirst (fun name => p name = false) base name := by
  obtain ⟨accepted, n, bound, rfl, before⟩ := List.find?_eq_some_iff_getElem.1 h
  rw [length_candidates] at bound
  have at_ {k : Nat} (le : k ≤ n) (lt : k < (candidates base count).length) :
      (candidates base count)[k] = attempt base k :=
    Option.some.inj ((List.getElem?_eq_getElem lt).symm.trans (getElem?_candidates (by omega)))
  refine ⟨n, at_ (Nat.le_refl n) _, by simp [accepted], fun k lt => ?_⟩
  rw [← at_ (Nat.le_of_lt lt) (by rw [length_candidates]; omega)]
  simpa using before k lt

theorem unique_isFirst (base : String) (taken : List String) :
    IsFirst (· ∈ taken) base (unique base taken) := by
  obtain ⟨name, mem, free⟩ := exists_candidate base taken
  obtain ⟨found, hf⟩ := Option.isSome_iff_exists.1 (List.find?_isSome.2 ⟨name, mem, by simpa⟩ :
    ((candidates base taken.length).find? (!taken.contains ·)).isSome)
  rw [unique, hf]
  exact (isFirst_of_find? hf).congr (by simp)

-- The least number that makes a name free, where the name itself is not.
theorem IsFirst.isLeast (h : IsFirst refused base name) (taken : refused base) :
    ∃ k, IsLeast {k | 2 ≤ k ∧ ¬refused (base ++ toString k)} k ∧ name = base ++ toString k := by
  obtain ⟨n, rfl, free, before⟩ := h
  cases n with
  | zero => exact absurd taken free
  | succ n =>
    refine ⟨n + 2, ⟨⟨by omega, free⟩, fun k ⟨two, other⟩ => ?_⟩, rfl⟩
    by_contra less
    obtain ⟨j, rfl⟩ := Nat.exists_eq_add_of_le' two
    exact other (before (j + 1) (by omega))

-- Each name gets the first of its sequence that is not taken, and that is taken for all after it.
inductive GivenInTurn : List String → List String → List String → Prop
  | nil {taken : List String} : GivenInTurn taken [] []
  | cons {taken wanted given : List String} {base name : String}
      (found : Finds (· ∈ taken) base name) (later : GivenInTurn (name :: taken) wanted given) :
      GivenInTurn taken (base :: wanted) (name :: given)

end Naming

namespace EnumTable

open Naming

variable {t : EnumTable} {labels wanted : List String} {name : String}

theorem addConsts_givenInTurn (t : EnumTable) (wanted : List String) :
    GivenInTurn t.taken wanted (t.addConsts wanted).1 := by
  induction wanted generalizing t with
  | nil => exact .nil
  | cons name rest ih =>
    let assigned := unique name t.taken
    let renamed := if assigned = name then [] else [(name, assigned)]
    exact .cons (unique_isFirst ..).finds
      (ih { t with taken := assigned :: t.taken, renamedConsts := t.renamedConsts ++ renamed })

theorem assignedName_isFirst (t : EnumTable) (requested : String) (labels wanted : List String) :
    IsFirst (fun name => t.admits labels wanted name = false) requested
      (t.assignedName requested labels wanted) :=
  isFirst_of_find? (t.find?_candidates requested labels wanted (Nat.le_refl _))

-- All names of entries are taken, so that a name is free as soon as it is not taken.
theorem Sound.admits_iff (h : t.Sound) :
    t.admits labels wanted name = true ↔ name ∉ t.taken ∨
      ∃ entry ∈ t.entries, entry.name = name ∧ entry.labels = labels ∧ entry.constNames = wanted := by
  have isTaken {entry : EnumEntry} (mem : entry ∈ t.entries) : entry.name ∈ t.taken :=
    h.taken _ (List.mem_flatMap.2 ⟨entry, mem, List.mem_cons_self ..⟩)
  rw [admits]
  cases found : t.get? name with
  | some entry =>
    obtain ⟨mem, rfl⟩ := (get?_eq_some_iff h.distinct).1 found
    simp only [EnumEntry.sameOptions_iff, isTaken mem, not_true_eq_false, false_or]
    constructor
    · exact fun same => ⟨entry, mem, rfl, same⟩
    · rintro ⟨entry', mem', called, same⟩
      obtain rfl := List.inj_on_of_nodup_map (nodup_entryNames h.distinct) mem' mem called
      exact same
  | none =>
    have absent := get?_eq_none_iff.1 found
    grind

-- A registration that answers with a name of its own adds an entry.
theorem register_adds (t : EnumTable) {entity field : String} (spec : EnumSpec) (h : t.Sound)
    (unknown : t.owner? entity field = none)
    (new : (t.register entity field spec).1.name ∉ t.taken) :
    ∃ entry, (t.register entity field spec).2.entries = t.entries ++ [entry] ∧
      entry.name = (t.register entity field spec).1.name ∧ entry.labels = spec.labels ∧
      GivenInTurn (entry.name :: t.taken) spec.wantedConsts entry.constNames := by
  rcases register_cases t entity field spec with
    ⟨_, known, _⟩ | ⟨_, _, _, ⟨entry, found, _, _, e⟩ | ⟨_, _, registration, rfl, e⟩⟩
  · simp [unknown] at known
  · rw [e] at new
    obtain ⟨mem, rfl⟩ := (get?_eq_some_iff h.distinct).1 found
    exact absurd (h.taken _ (List.mem_flatMap.2 ⟨entry, mem, List.mem_cons_self ..⟩)) new
  · let opened : EnumTable := { t with taken := registration.name :: t.taken }
    have entries := (addConsts_spec opened spec.wantedConsts).entries
    rw [e]
    refine ⟨⟨registration.name, spec.labels, (opened.addConsts spec.wantedConsts).1⟩, ?_, rfl, rfl,
      addConsts_givenInTurn opened spec.wantedConsts⟩
    exact congrArg (· ++ _) entries

-- A search among finitely many taken names ends with the wanted name if that is free, and else with
-- the least number from 2 on. The table of enumerations searches for the name of an enumeration that
-- is not taken, or that of an entry with the same options, and then for that of each constant in turn.
theorem searches_find_first :
    (∀ base taken,
      Finds (· ∈ taken) base (unique base taken) ∧
      (base ∉ taken → unique base taken = base) ∧
      (base ∈ taken → ∃ k, IsLeast {k | 2 ≤ k ∧ base ++ toString k ∉ taken} k ∧
        unique base taken = base ++ toString k)) ∧
    ∀ requests entity field spec, (∀ other, .register entity field other ∉ requests) →
      let t := after requests
      let registered := t.register entity field spec
      (∀ name, t.admits spec.labels spec.wantedConsts name = true ↔ name ∉ t.taken ∨
        ∃ entry ∈ t.entries, entry.name = name ∧ entry.labels = spec.labels ∧
          entry.constNames = spec.wantedConsts) ∧
      Finds (fun name => t.admits spec.labels spec.wantedConsts name = false) spec.typeName
        registered.1.name ∧
      (registered.1.name ∉ t.taken → ∃ entry, registered.2.entries = t.entries ++ [entry] ∧
        entry.name = registered.1.name ∧ entry.labels = spec.labels ∧
        GivenInTurn (entry.name :: t.taken) spec.wantedConsts entry.constNames) := by
  refine ⟨fun base taken => ?_, fun requests entity field spec new => ?_⟩
  · have first := unique_isFirst base taken
    exact ⟨first.finds, unique_eq_self.2, first.isLeast⟩
  · have unknown := owner?_after_eq_none_iff.2 new
    have sound := sound_after requests
    refine ⟨fun _ => sound.admits_iff, ?_, register_adds _ spec sound unknown⟩
    rw [register_name unknown]
    exact (assignedName_isFirst ..).finds

-- `Status` is reserved and `Status2` has other options, so that the next one is `Status3`. Of its
-- constants, `New` belongs to `Status2`.
theorem searches_pass_other_options :
    let t := after
      [.reserve "Status", .register "Order" "status" ⟨"Status", ["new"], none⟩]
    let spec : EnumSpec := ⟨"Status", ["new", "old"], none⟩
    let registered := t.register "Ticket" "state" spec
    unique "Old" t.taken = "Old" ∧
    (∃ k, IsLeast {k | 2 ≤ k ∧ "Status" ++ toString k ∉ t.taken} k ∧
      unique "Status" t.taken = "Status" ++ toString k) ∧
    Finds (fun name => t.admits ["new", "old"] ["New", "Old"] name = false) "Status" "Status3" ∧
    ∃ entry, registered.2.entries = t.entries ++ [entry] ∧ entry.name = "Status3" ∧
      entry.constNames = ["New2", "Old"] ∧
      GivenInTurn ["Status3", "New", "Status2", "Status"] ["New", "Old"] entry.constNames := by
  intro t spec registered
  have taken : t.taken = ["New", "Status2", "Status"] := by decide
  have wanted : spec.wantedConsts = ["New", "Old"] := by decide
  have named : registered.1.name = "Status3" := by decide
  obtain ⟨bases, registrations⟩ := searches_find_first
  obtain ⟨-, found, adds⟩ := registrations [.reserve "Status",
    .register "Order" "status" ⟨"Status", ["new"], none⟩] "Ticket" "state" spec (by simp)
  change Finds _ _ registered.1.name at found
  rw [named, wanted] at found
  obtain ⟨entry, entries, called, -, inTurn⟩ := adds (by decide)
  have last : registered.2.entries.getLast? = some ⟨"Status3", ["new", "old"], ["New2", "Old"]⟩ := by
    decide
  obtain rfl : entry = ⟨"Status3", ["new", "old"], ["New2", "Old"]⟩ := by
    rw [show registered.2.entries = _ from entries] at last
    simpa using last
  rw [show (after _).taken = _ from taken, wanted] at inTurn
  exact ⟨(bases _ _).2.1 (by decide), (bases _ _).2.2 (by decide), found,
    _, entries, rfl, rfl, inTurn⟩

end EnumTable

end FieldAccess
