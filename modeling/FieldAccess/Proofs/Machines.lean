import FieldAccess.Eval.Machine
import FieldAccess.Proofs.Alike

namespace FieldAccess

theorem rel_imp {α β : Type} {R R' : α → β → Prop} (hR : ∀ a b, R a b → R' a b)
    {x : Option α} {y : Option β} (h : Option.Rel R x y) : Option.Rel R' x y := by
  cases h with
  | none => exact .none
  | some h => exact .some (hR _ _ h)

theorem isSome_eq_of_rel {α β : Type} {R : α → β → Prop} {x : Option α} {y : Option β}
    (h : Option.Rel R x y) : x.isSome = y.isSome := by
  cases h <;> rfl

namespace Table

variable {κ : Type} {R R' : Value → Value → Prop} {t t' : Table κ} {v v' : Value}

-- The same keys in the same order, with values that correspond.
def Alike (R : Value → Value → Prop) (t t' : Table κ) : Prop :=
  List.Forall₂ (fun e e' => e.1 = e'.1 ∧ R e.2 e'.2) t.entries t'.entries

theorem Alike.mono (hR : ∀ v v', R v v' → R' v v') (h : Alike R t t') : Alike R' t t' :=
  List.Forall₂.imp (fun _ _ => And.imp_right (hR _ _)) h

theorem Alike.empty : Alike R (.empty : Table κ) .empty :=
  .nil

variable [DecidableEq κ]

theorem Alike.get? (h : Alike R t t') (key : κ) : Option.Rel R (t.get? key) (t'.get? key) := by
  obtain ⟨es⟩ := t
  obtain ⟨es'⟩ := t'
  simp only [Alike, Table.get?] at h ⊢
  induction h with
  | nil => exact .none
  | @cons e e' _ _ head _ ih =>
    obtain ⟨k, w⟩ := e
    obtain ⟨k', w'⟩ := e'
    obtain rfl : k = k' := head.1
    simp only [List.lookup_cons]
    cases key == k
    · exact ih
    · exact .some head.2

theorem Alike.insert (h : Alike R t t') (key : κ) (hv : R v v') :
    Alike R (t.insert key v) (t'.insert key v') := by
  obtain ⟨es⟩ := t
  obtain ⟨es'⟩ := t'
  simp only [Alike, Table.insert] at h ⊢
  induction h with
  | nil => exact .cons ⟨rfl, hv⟩ .nil
  | @cons e e' _ _ head rest ih =>
    obtain ⟨k, w⟩ := e
    obtain ⟨k', w'⟩ := e'
    obtain rfl : k = k' := head.1
    simp only [insertInto]
    split
    · exact .cons ⟨rfl, hv⟩ rest
    · exact .cons head ih

-- Setting what is there already changes nothing.
theorem insert_of_get? {key : κ} (h : t.get? key = some v) : t.insert key v = t := by
  obtain ⟨es⟩ := t
  simp only [Table.get?, Table.insert, Table.mk.injEq] at h ⊢
  induction es with
  | nil => contradiction
  | cons e rest ih =>
    obtain ⟨k, w⟩ := e
    simp only [insertInto]
    by_cases hk : k = key
    · subst hk
      simp_all
    · simp only [List.lookup_cons, beq_eq_false_iff_ne.2 (Ne.symm hk)] at h
      simp [hk, ih h]

theorem insert_insert (t : Table κ) (key : κ) (v v' : Value) :
    (t.insert key v).insert key v' = t.insert key v' := by
  obtain ⟨es⟩ := t
  simp only [Table.insert, Table.mk.injEq]
  induction es with
  | nil => simp [insertInto]
  | cons e es ih =>
    obtain ⟨k, w⟩ := e
    by_cases hk : k = key
    · simp [insertInto, hk]
    · simp [insertInto, hk, ih]

-- A key that is there keeps its place.
theorem insert_insert_other (t : Table κ) {k k' : κ} (ne : k ≠ k') (a b c : Value) :
    ((t.insert k a).insert k' b).insert k c = (t.insert k c).insert k' b := by
  obtain ⟨es⟩ := t
  have same (es : List (κ × Value)) : insertInto k c (insertInto k a es) = insertInto k c es :=
    congrArg entries (insert_insert ⟨es⟩ k a c)
  simp only [Table.insert, Table.mk.injEq]
  induction es with
  | nil => simp [insertInto, ne]
  | cons e es ih =>
    obtain ⟨k'', w⟩ := e
    by_cases hk : k'' = k
    · simp [insertInto, hk, ne]
    · by_cases hk' : k'' = k'
      · simp [insertInto, hk', ne.symm, same]
      · simp [insertInto, hk, hk', ih]

end Table

namespace Machine

variable {m m₁ m₂ : Machine}

-- Maps and objects may be new. Whatever was there is as it was.
structure Grows (m m' : Machine) : Prop where
  mapsLe : m.maps.size ≤ m'.maps.size
  map : ∀ a < m.maps.size, m'.map a = m.map a
  objectsLe : m.objects.size ≤ m'.objects.size
  object : ∀ a < m.objects.size, m'.object a = m.object a
  records : m'.records = m.records
  globals : m'.globals = m.globals

theorem Grows.refl (m : Machine) : Grows m m :=
  ⟨Nat.le_refl _, fun _ _ => rfl, Nat.le_refl _, fun _ _ => rfl, rfl, rfl⟩

theorem Grows.trans (h₁ : Grows m m₁) (h₂ : Grows m₁ m₂) : Grows m m₂ where
  mapsLe := Nat.le_trans h₁.mapsLe h₂.mapsLe
  map a ha := (h₂.map a (Nat.lt_of_lt_of_le ha h₁.mapsLe)).trans (h₁.map a ha)
  objectsLe := Nat.le_trans h₁.objectsLe h₂.objectsLe
  object a ha := (h₂.object a (Nat.lt_of_lt_of_le ha h₁.objectsLe)).trans (h₁.object a ha)
  records := h₂.records.trans h₁.records
  globals := h₂.globals.trans h₁.globals

theorem Grows.record (h : Grows m m₁) (a : Nat) : m₁.record a = m.record a := by
  simp only [Machine.record, h.records]

theorem Grows.allocMap {t : Table MapKey} {v : Value} (h : Machine.allocMap t m = (v, m₁)) :
    v = .map m.maps.size ∧ m₁ = { m with maps := m.maps.push t } ∧ Grows m m₁ := by
  obtain ⟨rfl, rfl⟩ := Prod.mk.inj h
  refine ⟨rfl, rfl, by simp, fun a ha => ?_, Nat.le_refl _, fun _ _ => rfl, rfl, rfl⟩
  simp [Machine.map, Array.getElem?_push, Nat.ne_of_lt ha]

theorem Grows.allocObject {o : Object} {v : Value} (h : Machine.allocObject o m = (v, m₁)) :
    Grows m m₁ := by
  obtain ⟨rfl, rfl⟩ := Prod.mk.inj h
  refine ⟨Nat.le_refl _, fun _ _ => rfl, by simp, fun a ha => ?_, rfl, rfl⟩
  simp [Machine.object, Array.getElem?_push, Nat.ne_of_lt ha]

theorem map_allocMap (t : Table MapKey) :
    Machine.map { m with maps := m.maps.push t } m.maps.size = t := by
  simp [Machine.map]

variable {a b : Nat} {name : String} {v v' : Value}

-- Sets a field of an object.
def setField (m : Machine) (a : Nat) (name : String) (v : Value) : Machine :=
  m.setObject a { m.object a with fields := (m.object a).fields.insert name v }

theorem object_setField (ha : a < m.objects.size) (b : Nat) :
    (m.setField a name v).object b =
      if b = a then { m.object a with fields := (m.object a).fields.insert name v }
      else m.object b :=
  object_setObject m a b _ ha

theorem setField_of_le (ha : m.objects.size ≤ a) : m.setField a name v = m := by
  have : ¬ a < m.objects.size := Nat.not_lt.2 ha
  simp [setField, setObject, Array.setIfInBounds, this]

theorem setField_setField : (m.setField a name v).setField a name v' = m.setField a name v' := by
  by_cases ha : a < m.objects.size
  · have same : (m.setField a name v).object a = _ := (object_setField ha a).trans (if_pos rfl)
    rw [setField, same]
    simp [setField, setObject, Table.insert_insert]
  · have ha := Nat.le_of_not_lt ha
    rw [setField_of_le (m := m) ha, setField_of_le ha]

-- Setting what a field holds already changes nothing.
theorem setField_of_get? (h : (m.object a).fields.get? name = some v) : m.setField a name v = m := by
  by_cases ha : a < m.objects.size
  · have same : m.objects.setIfInBounds a m.objects[a] = m.objects := by
      refine Array.ext (by simp) fun i _ hi => ?_
      rw [Array.getElem_setIfInBounds hi]
      split <;> simp_all
    have at_ : m.object a = m.objects[a] := by simp [object, ha]
    rw [setField, Table.insert_of_get? h]
    change { m with objects := m.objects.setIfInBounds a (m.object a) } = m
    rw [at_, same]
  · exact setField_of_le (Nat.le_of_not_lt ha)

-- Sets a value in a record.
def store (m : Machine) (record : Nat) (key : String) (v : Value) : Machine :=
  m.setRecord record { m.record record with data := (m.record record).data.insert key v }

theorem record_store {r : Nat} (hr : r < m.records.size) (b : Nat) (key : String) :
    (m.store r key v).record b =
      if b = r then { m.record r with data := (m.record r).data.insert key v } else m.record b :=
  record_setRecord m r b _ hr

@[simp]
theorem records_size_store (r : Nat) (key : String) :
    (m.store r key v).records.size = m.records.size :=
  Array.size_setIfInBounds

end Machine

section

variable {twins : List Twin} {maps maps' ext : List (Nat × Nat)} {m m₁ m' m'₁ : Machine}

-- The maps of a run lie below an address.
def Below (maps : List (Nat × Nat)) (n : Nat) : Prop :=
  ∀ p ∈ maps, p.1 < n

-- Corresponding maps hold the same entries.
structure MapsAlike (twins : List Twin) (maps : List (Nat × Nat)) (m m' : Machine) : Prop where
  paired : PairedMaps maps
  bounded : ∀ p ∈ maps, p.1 < m.maps.size ∧ p.2 < m'.maps.size
  alike : ∀ p ∈ maps, Table.Alike (Value.Alike twins maps) (m.map p.1) (m'.map p.2)

-- Only maps from a certain range of addresses are new, and they are new in the other run as well.
structure Fresh (ext : List (Nat × Nat)) (start stop start' : Nat) : Prop where
  source : ∀ p ∈ ext, start ≤ p.1 ∧ p.1 < stop
  target : ∀ p ∈ ext, start' ≤ p.2

namespace MapsAlike

theorem nil : MapsAlike twins [] m m' :=
  ⟨by simp [PairedMaps], by simp, by simp⟩

theorem grow_left (h : MapsAlike twins maps m m') (grows : m.Grows m₁) :
    MapsAlike twins maps m₁ m' where
  paired := h.paired
  bounded p hp := ⟨Nat.lt_of_lt_of_le (h.bounded p hp).1 grows.mapsLe, (h.bounded p hp).2⟩
  alike p hp := by
    rw [grows.map _ (h.bounded p hp).1]
    exact h.alike p hp

theorem grow_right (h : MapsAlike twins maps m m') (grows : m'.Grows m'₁) :
    MapsAlike twins maps m m'₁ where
  paired := h.paired
  bounded p hp := ⟨(h.bounded p hp).1, Nat.lt_of_lt_of_le (h.bounded p hp).2 grows.mapsLe⟩
  alike p hp := by
    rw [grows.map _ (h.bounded p hp).2]
    exact h.alike p hp

-- Only the maps of the machines count.
theorem of_maps_eq (h : MapsAlike twins maps m m') (e : m₁.maps = m.maps) (e' : m'₁.maps = m'.maps) :
    MapsAlike twins maps m₁ m'₁ where
  paired := h.paired
  bounded := by
    rw [e, e']
    exact h.bounded
  alike := by
    simp only [Machine.map, e, e']
    exact h.alike

-- A map of the one run is paired with a new map of the other.
theorem alloc (h : MapsAlike twins maps m m') {a : Nat} (ha : a < m.maps.size)
    (new : ∀ p ∈ maps, p.1 ≠ a) {t : Table MapKey}
    (ht : Table.Alike (Value.Alike twins maps) (m.map a) t) :
    MapsAlike twins ((a, m'.maps.size) :: maps) m { m' with maps := m'.maps.push t } := by
  have sub : maps ⊆ (a, m'.maps.size) :: maps := List.subset_cons_self ..
  have mono : ∀ v v', Value.Alike twins maps v v' →
      Value.Alike twins ((a, m'.maps.size) :: maps) v v' :=
    fun _ _ hv => hv.mono (List.Subset.refl _) sub
  have size : ({ m' with maps := m'.maps.push t } : Machine).maps.size = m'.maps.size + 1 := by
    simp
  refine ⟨fun p hp q hq => ?_, fun p hp => ?_, fun p hp => ?_⟩
  · have bounded := h.bounded
    have paired := h.paired
    rcases List.mem_cons.1 hp with rfl | hp <;> rcases List.mem_cons.1 hq with rfl | hq
    · simp
    · have apart := new q hq
      have := (bounded q hq).2
      exact ⟨fun e => absurd e.symm apart, fun e => absurd e (Nat.ne_of_gt this)⟩
    · have apart := new p hp
      have := (bounded p hp).2
      exact ⟨fun e => absurd e apart, fun e => absurd e (Nat.ne_of_lt this)⟩
    · exact paired p hp q hq
  · rw [size]
    rcases List.mem_cons.1 hp with rfl | hp
    · exact ⟨ha, Nat.lt_succ_self _⟩
    · have := h.bounded p hp
      omega
  · rcases List.mem_cons.1 hp with rfl | hp
    · rw [Machine.map_allocMap]
      exact ht.mono mono
    · have grown := (Machine.Grows.allocMap (m := m') (t := t) rfl).2.2
      have := grown.map p.2 (h.bounded p hp).2
      rw [this]
      exact (h.alike p hp).mono mono

-- Corresponding maps stay so when both are set to tables that correspond.
theorem set (h : MapsAlike twins maps m m') {a b : Nat} (mem : (a, b) ∈ maps) {t t' : Table MapKey}
    (ht : Table.Alike (Value.Alike twins maps) t t') :
    MapsAlike twins maps (m.setMap a t) (m'.setMap b t') where
  paired := h.paired
  bounded p hp := by
    simpa [Machine.setMap] using h.bounded p hp
  alike p hp := by
    have same := h.paired p hp _ mem
    rw [Machine.map_setMap _ _ _ _ (h.bounded _ mem).1, Machine.map_setMap _ _ _ _ (h.bounded _ mem).2]
    by_cases e : p.1 = a
    · rw [if_pos e, if_pos (same.1 e)]
      exact ht
    · rw [if_neg e, if_neg fun e' => e (same.2 e')]
      exact h.alike p hp

-- Maps that were paired apart from one another can be put together.
theorem union (h : MapsAlike twins (ext ++ maps) m m') (h₁ : MapsAlike twins maps' m m')
    (apart : ∀ p ∈ ext, ∀ q ∈ maps', p.1 ≠ q.1 ∧ p.2 ≠ q.2) (sub : maps ⊆ maps') :
    MapsAlike twins (ext ++ maps') m m' := by
  have sub' : ext ++ maps ⊆ ext ++ maps' := List.append_subset.2
    ⟨List.subset_append_left .., fun p hp => List.mem_append_right _ (sub hp)⟩
  refine ⟨fun p hp q hq => ?_, fun p hp => ?_, fun p hp => ?_⟩
  · rcases List.mem_append.1 hp with hp | hp <;> rcases List.mem_append.1 hq with hq | hq
    · exact h.paired p (List.mem_append_left _ hp) q (List.mem_append_left _ hq)
    · have := apart p hp q hq
      exact ⟨fun e => absurd e this.1, fun e => absurd e this.2⟩
    · have := apart q hq p hp
      exact ⟨fun e => absurd e.symm this.1, fun e => absurd e.symm this.2⟩
    · exact h₁.paired p hp q hq
  · rcases List.mem_append.1 hp with hp | hp
    · exact h.bounded p (List.mem_append_left _ hp)
    · exact h₁.bounded p hp
  · rcases List.mem_append.1 hp with hp | hp
    · exact (h.alike p (List.mem_append_left _ hp)).mono fun _ _ =>
        Value.Alike.mono (List.Subset.refl _) sub'
    · exact (h₁.alike p hp).mono fun _ _ =>
        Value.Alike.mono (List.Subset.refl _) (List.subset_append_right ..)

end MapsAlike

end

end FieldAccess
