import FieldAccess.Proofs.RenamedRuns

namespace FieldAccess

mutual

def Value.isWithin (m : Machine) : Value → Bool
  | .map address => address < m.maps.size
  | .object address => address < m.objects.size
  | .slice items => areWithin m items
  | _ => true

def areWithin (m : Machine) : List Value → Bool
  | [] => true
  | v :: rest => v.isWithin m && areWithin m rest

end

abbrev Table.IsWithin {κ : Type} (m : Machine) (t : Table κ) : Prop :=
  ∀ e ∈ t.entries, e.2.isWithin m = true

abbrev Frame.IsWithin (m : Machine) (f : Frame) : Prop :=
  ∀ t ∈ f.scopes, t.IsWithin m

-- Whatever a machine refers to is there.
structure Machine.Closed (m : Machine) : Prop where
  map : ∀ a < m.maps.size, (m.map a).IsWithin m
  object : ∀ a < m.objects.size, (m.object a).fields.IsWithin m
  record : ∀ a < m.records.size, (m.record a).data.IsWithin m ∧ (m.record a).expand.IsWithin m
  globals : m.globals.IsWithin m

-- Every map and object at its own address.
def Machine.addresses (m : Machine) : Renaming :=
  ⟨List.range m.maps.size, List.range m.objects.size⟩

variable {m m' : Machine} {w : Renaming}

theorem getElem?_range_iff {n a b : Nat} : (List.range n)[a]? = some b ↔ a < n ∧ a = b := by
  simp [List.getElem?_eq_some_iff]

mutual

theorem Value.renamed_of_isWithin : ∀ {v : Value}, v.isWithin m = true → v.Renamed m.addresses v
  | .nil, _ => .nil
  | .bool b, _ => .bool b
  | .int a, _ => .int a
  | .float a, _ => .float a
  | .str text, _ => .str text
  | .slice _, h => .slice (renamedItems_of_areWithin h)
  | .map _, h => .map (getElem?_range_iff.2 ⟨of_decide_eq_true h, rfl⟩)
  | .record a, _ => .record a
  | .object _, h => .object (getElem?_range_iff.2 ⟨of_decide_eq_true h, rfl⟩)

theorem Value.renamedItems_of_areWithin : ∀ {vs : List Value}, areWithin m vs = true →
    RenamedItems m.addresses vs vs
  | [], _ => .nil
  | _ :: _, h =>
    have ⟨head, rest⟩ := Bool.and_eq_true_iff.1 h
    .cons (renamed_of_isWithin head) (renamedItems_of_areWithin rest)

end

mutual

theorem Machine.Renamed.isWithin (h : m.Renamed w m') :
    ∀ {v v' : Value}, v.Renamed w v' → v.isWithin m = true
  | _, _, .nil | _, _, .bool _ | _, _, .int _ | _, _, .float _ | _, _, .str _
  | _, _, .record _ => rfl
  | _, _, .slice items => h.areWithin items
  | _, _, .map found => decide_eq_true (h.map_lt found).1
  | _, _, .object found => decide_eq_true (h.object_lt found).1

theorem Machine.Renamed.areWithin (h : m.Renamed w m') :
    ∀ {vs vs' : List Value}, Value.RenamedItems w vs vs' → areWithin m vs = true
  | _, _, .nil => rfl
  | _, _, .cons head rest => Bool.and_eq_true_iff.2 ⟨h.isWithin head, h.areWithin rest⟩

end

theorem Table.IsWithin.alike {κ : Type} {t : Table κ} (h : t.IsWithin m) :
    Table.Alike (Value.Renamed m.addresses) t t :=
  List.forall₂_same.2 fun e he => ⟨rfl, Value.renamed_of_isWithin (h e he)⟩

theorem Machine.Renamed.table {κ : Type} {t t' : Table κ} (h : m.Renamed w m')
    (alike : Table.Alike (Value.Renamed w) t t') : t.IsWithin m := by
  intro e he
  obtain ⟨e', -, rel⟩ := exists_of_forall₂ alike he
  exact h.isWithin rel.2

theorem Frame.IsWithin.renamed {f : Frame} (h : f.IsWithin m) : f.Renamed m.addresses f :=
  List.forall₂_same.2 fun t ht => (h t ht).alike

-- A closed machine holds the same as itself.
theorem Machine.Closed.renamed (h : m.Closed) : m.Renamed m.addresses m where
  maps := List.length_range
  objects := List.length_range
  apart := ⟨List.nodup_range, List.nodup_range⟩
  mapsLt _ := List.mem_range.1
  objectsLt _ := List.mem_range.1
  map {a b} found := by
    obtain ⟨lt, rfl⟩ := getElem?_range_iff.1 found
    exact (h.map a lt).alike
  object {a b} found := by
    obtain ⟨lt, rfl⟩ := getElem?_range_iff.1 found
    exact ⟨rfl, (h.object a lt).alike⟩
  records := rfl
  record a := by
    by_cases lt : a < m.records.size
    · exact ⟨rfl, rfl, (h.record a lt).1.alike, (h.record a lt).2.alike⟩
    · have outside : m.record a = default := by simp [Machine.record, lt]
      rw [outside]
      exact ⟨rfl, rfl, .empty, .empty⟩
  globals := h.globals.alike

-- What holds the same as another machine is closed.
theorem Machine.Renamed.closed (h : m.Renamed w m') : m.Closed where
  map _ lt := h.table (h.map (List.getElem?_eq_getElem (h.maps ▸ lt)))
  object _ lt := h.table (h.object (List.getElem?_eq_getElem (h.objects ▸ lt))).fields
  record a _ := ⟨h.table (h.record a).data, h.table (h.record a).expand⟩
  globals := h.table h.globals

end FieldAccess
