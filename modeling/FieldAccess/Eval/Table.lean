import FieldAccess.Eval.Value

namespace FieldAccess

structure Table (κ : Type) where
  entries : List (κ × Value)
deriving Inhabited

namespace Table

variable {κ : Type} [DecidableEq κ]

def empty : Table κ :=
  ⟨[]⟩

def size (t : Table κ) : Nat :=
  t.entries.length

def get? (t : Table κ) (key : κ) : Option Value :=
  t.entries.lookup key

def contains (t : Table κ) (key : κ) : Bool :=
  (t.get? key).isSome

-- A key that is set again keeps its place.
def insertInto (key : κ) (value : Value) : List (κ × Value) → List (κ × Value)
  | [] => [(key, value)]
  | (k, v) :: rest => if k = key then (k, value) :: rest else (k, v) :: insertInto key value rest

def insert (t : Table κ) (key : κ) (value : Value) : Table κ :=
  ⟨insertInto key value t.entries⟩

def ofList (entries : List (κ × Value)) : Table κ :=
  entries.foldl (fun t (key, value) => t.insert key value) empty

theorem lookup_insertInto (key other : κ) (value : Value) (entries : List (κ × Value)) :
    (insertInto key value entries).lookup other =
      if other = key then some value else entries.lookup other := by
  induction entries with
  | nil =>
    by_cases h : other = key
    · simp [insertInto, h]
    · simp [insertInto, List.lookup_cons, beq_eq_false_iff_ne.2 h, h]
  | cons entry rest ih =>
    obtain ⟨k, v⟩ := entry
    by_cases hk : k = key
    · subst hk
      by_cases h : other = k
      · simp [insertInto, h]
      · simp [insertInto, List.lookup_cons, beq_eq_false_iff_ne.2 h, h]
    · by_cases h : other = k
      · subst h
        simp [insertInto, hk]
      · simp [insertInto, List.lookup_cons, beq_eq_false_iff_ne.2 h, hk, ih]

@[simp]
theorem get?_empty (key : κ) : (empty : Table κ).get? key = none := rfl

theorem get?_insert (t : Table κ) (key other : κ) (value : Value) :
    (t.insert key value).get? other = if other = key then some value else t.get? other :=
  lookup_insertInto key other value t.entries

@[simp]
theorem get?_insert_self (t : Table κ) (key : κ) (value : Value) :
    (t.insert key value).get? key = some value := by
  simp [get?_insert]

end Table

end FieldAccess
