import Mathlib.Data.List.Infix

namespace FieldAccess

section

variable {α : Type}

-- The elements of a list, each with those before it.
def withEarlier (l : List α) : List (List α × α) :=
  l.inits.zip l

-- The elements of what follows on `before`, each with all those before it.
def withEarlierAfter (before l : List α) : List (List α × α) :=
  (l.inits.map (before ++ ·)).zip l

theorem withEarlierAfter_nil (before : List α) : withEarlierAfter before [] = [] :=
  List.zip_nil_right

theorem withEarlierAfter_cons (before : List α) (a : α) (l : List α) :
    withEarlierAfter before (a :: l) = (before, a) :: withEarlierAfter (before ++ [a]) l := by
  simp [withEarlierAfter, Function.comp_def]

theorem withEarlier_eq (l : List α) : withEarlier l = withEarlierAfter [] l := by
  simp [withEarlier, withEarlierAfter]

-- Names that were seen are those that came before, also after one more element: its name was seen,
-- or it is seen from then on.
theorem seen_iff_of_known {name : α → String} {seen : List String} {before : List α} {a : α}
    (same : ∀ n, n ∈ seen ↔ n ∈ before.map name) (known : name a ∈ seen) :
    ∀ n, n ∈ seen ↔ n ∈ (before ++ [a]).map name := by
  intro n
  rw [List.map_append, List.mem_append, ← same n, List.map_singleton, List.mem_singleton]
  exact ⟨.inl, fun h => h.elim id (· ▸ known)⟩

theorem seen_iff_of_new {name : α → String} {seen : List String} {before : List α}
    (same : ∀ n, n ∈ seen ↔ n ∈ before.map name) (a : α) :
    ∀ n, n ∈ name a :: seen ↔ n ∈ (before ++ [a]).map name := by
  intro n
  rw [List.map_append, List.mem_append, ← same n, List.map_singleton, List.mem_singleton,
    List.mem_cons, or_comm]

end

end FieldAccess
