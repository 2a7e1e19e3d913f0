import FieldAccess.Proofs.PlaceSimulation

namespace FieldAccess

namespace Place

variable {f f₁ : Frame} {m m₁ : Machine} {a : Nat} {name : String} {v : Value} {u : Unit}

theorem ok_access_field {α : Type} {g : Access α} {b : α} :
    (field a name).access g f m = .ok (b, f₁) m₁ ↔ ∃ v m₂,
      g (((m.object a).fields.get? name).getD .nil)
        (m.setField a name (((m.object a).fields.get? name).getD .nil)) = .ok (b, v) m₂ ∧
      m₁ = m₂.setField a name v ∧ f = f₁ := by
  simp only [access, Step.ok_lift, accessField, Exec.ok_bind, Exec.ok_get, Exec.ok_modify,
    Exec.ok_pure]
  constructor
  · rintro ⟨⟨_, _, ⟨rfl, rfl⟩, _, _, rfl, ⟨b', v⟩, m₂, got, _, _, rfl, rfl, rfl⟩, rfl⟩
    exact ⟨v, m₂, got, rfl, rfl⟩
  · rintro ⟨v, m₂, got, rfl, rfl⟩
    exact ⟨⟨_, _, ⟨rfl, rfl⟩, (), _, rfl, (b, v), m₂, got, (), _, rfl, rfl, rfl⟩, rfl⟩

theorem ok_write_field :
    (field a name).write v f m = .ok (u, f₁) m₁ ↔ m₁ = m.setField a name v ∧ f = f₁ := by
  rw [write, ok_access_field]
  constructor
  · rintro ⟨_, _, got, rfl, rfl⟩
    obtain ⟨e, rfl⟩ := Exec.ok_pure.1 got
    obtain ⟨_, rfl⟩ := Prod.mk.inj e
    exact ⟨Machine.setField_setField, rfl⟩
  · rintro ⟨rfl, rfl⟩
    exact ⟨v, _, rfl, Machine.setField_setField.symm, rfl⟩

-- Reading a field changes nothing.
theorem ok_read_field {w : Value} (h : (m.object a).fields.get? name = some v) :
    (field a name).read f m = .ok (w, f₁) m₁ ↔ w = v ∧ m = m₁ ∧ f = f₁ := by
  rw [read, ok_access_field, h]
  simp only [Option.getD_some, Machine.setField_of_get? h, Exec.ok_pure, Prod.mk.injEq]
  constructor
  · rintro ⟨_, _, ⟨⟨rfl, rfl⟩, rfl⟩, rfl, rfl⟩
    exact ⟨rfl, (Machine.setField_of_get? h).symm, rfl⟩
  · rintro ⟨rfl, rfl, rfl⟩
    exact ⟨_, _, ⟨⟨rfl, rfl⟩, rfl⟩, (Machine.setField_of_get? h).symm, rfl⟩

end Place

section

variable {S : Sides} {N : List String} {maps : List (Nat × Nat)} {m m' : Machine} {t : Twin}
  {name : String} {info : FieldInfo} {k : BasicKind} {v v' : Value}

-- Machines correspond after both have written the same to a field.
theorem Machines.setField (sound : S.Sound) (h : Machines S N maps m m') (mem : t ∈ S.twins)
    (stores : S.catalog.Stores t.entity name info k) (hv : Value.Alike S.loose maps v v') :
    Machines S N maps (m.setField t.object name v) (m'.store t.record info.key v') := by
  have mirrored := h.mirrored t mem
  refine ⟨h.globals, h.tables.of_maps_eq rfl rfl, fun u hu => ?_⟩
  have other := h.mirrored u hu
  have record := Machine.record_setRecord m' t.record u.record
    { m'.record t.record with data := (m'.record t.record).data.insert info.key v' } mirrored.record
  refine ⟨⟨other.wrapper, ?_, other.type, other.holds⟩, ?_, fun {name' info' k'} stores' => ?_⟩
  · simpa [Machine.store, Machine.setRecord] using other.record
  · simpa [Machine.setField, Machine.setObject] using other.object
  · rw [Machine.object_setField mirrored.object, Machine.store, record]
    by_cases same : u = t
    · subst same
      simp only [if_true, Table.get?_insert]
      by_cases hn : name' = name
      · subst hn
        obtain rfl : info' = info := Option.some.inj (stores'.field.symm.trans stores.field)
        simpa using hv
      · have hk : info'.key ≠ info.key := fun e => hn (sound.keys mem stores' stores e)
        rw [if_neg hn, if_neg hk]
        exact other.data stores'
    · have object : u.object ≠ t.object := fun e => same (sound.apart u hu t mem (.inl e))
      have record : u.record ≠ t.record := fun e => same (sound.apart u hu t mem (.inr (.inr e)))
      rw [if_neg object, if_neg record]
      exact other.data stores'

end

namespace Place

-- A variable, or nothing.
inductive IsVariable : Place → Prop
  | blank : IsVariable .blank
  | named {x : String} : IsVariable (.named x)

def isField : Place → Bool
  | .field _ _ => true
  | _ => false

-- What writing the fields among some places makes of a machine.
def setFields : List (Place × Value) → Machine → Machine
  | [], m => m
  | (.field a name, v) :: rest, m => setFields rest (m.setField a name v)
  | _ :: rest, m => setFields rest m

-- The writes of anything but fields.
def others (writes : List (Place × Value)) : List (Place × Value) :=
  writes.filter fun w => !w.1.isField

def writePairs (writes : List (Place × Value)) : Step Unit :=
  Step.writeAll (writes.map (·.1)) (writes.map (·.2))

variable {f f₁ : Frame} {m m₁ : Machine} {a : Nat} {name : String} {v : Value} {u : Unit}

theorem ok_write_named {x : String} :
    (named x).write v f m = .ok (u, f₁) m₁ ↔
      (∃ w, f.get? x = some w ∧ f₁ = f.assign x v ∧ m₁ = m) ∨
      (∃ w, f.get? x = none ∧ m.globals.get? x = some w ∧ m₁ = m.setGlobal x v ∧ f₁ = f) := by
  rw [write, ok_access_named]
  simp only [Exec.ok_pure, Prod.mk.injEq]
  grind

theorem writeAll_eq (places : List Place) (values : List Value) :
    Step.writeAll places values = writePairs (places.zip values) := by
  induction places generalizing values with
  | nil => rfl
  | cons place places ih =>
    cases values with
    | nil => rfl
    | cons v values =>
      rw [Step.writeAll, ih]
      rfl

theorem ok_writePairs_cons {w : Place × Value} {writes : List (Place × Value)} :
    writePairs (w :: writes) f m = .ok (u, f₁) m₁ ↔ ∃ f₂ m₂,
      w.1.write w.2 f m = .ok ((), f₂) m₂ ∧ writePairs writes f₂ m₂ = .ok (u, f₁) m₁ := by
  rw [writePairs, List.map_cons, List.map_cons, Step.writeAll, Step.ok_bind]
  exact ⟨fun ⟨_, f₂, m₂, h⟩ => ⟨f₂, m₂, h⟩, fun ⟨f₂, m₂, h⟩ => ⟨(), f₂, m₂, h⟩⟩

-- A field may be set before or after a variable.
theorem write_setField {place : Place} (h : place.IsVariable) {w : Value} :
    place.write v f (m.setField a name w) = .ok (u, f₁) m₁ ↔
      ∃ m₂, place.write v f m = .ok (u, f₁) m₂ ∧ m₁ = m₂.setField a name w := by
  cases h with
  | blank =>
    simp only [write, ok_access_blank, Exec.ok_pure, Prod.mk.injEq]
    grind
  | named =>
    have globals : (m.setField a name w).globals = m.globals := rfl
    simp only [ok_write_named, globals]
    constructor
    · rintro (⟨_, hx, rfl, rfl⟩ | ⟨_, hx, hg, rfl, rfl⟩)
      · exact ⟨m, .inl ⟨_, hx, rfl, rfl⟩, rfl⟩
      · exact ⟨_, .inr ⟨_, hx, hg, rfl, rfl⟩, rfl⟩
    · rintro ⟨_, ⟨_, hx, rfl, rfl⟩ | ⟨_, hx, hg, rfl, rfl⟩, rfl⟩
      · exact .inl ⟨_, hx, rfl, rfl⟩
      · exact .inr ⟨_, hx, hg, rfl, rfl⟩

theorem writePairs_setField {writes : List (Place × Value)} (h : ∀ w ∈ writes, w.1.IsVariable)
    {w : Value} : writePairs writes f (m.setField a name w) = .ok (u, f₁) m₁ ↔
      ∃ m₂, writePairs writes f m = .ok (u, f₁) m₂ ∧ m₁ = m₂.setField a name w := by
  induction writes generalizing f m with
  | nil =>
    simp only [writePairs, List.map_nil, Step.writeAll, Step.ok_pure]
    grind
  | cons write writes ih =>
    have ih {f : Frame} {m : Machine} := @ih f m fun w hw => h w (by simp [hw])
    simp only [ok_writePairs_cons, write_setField (h write (by simp))]
    constructor
    · rintro ⟨f₂, _, ⟨m₂, written, rfl⟩, rest⟩
      obtain ⟨m₃, rest, e⟩ := ih.1 rest
      exact ⟨m₃, ⟨f₂, m₂, written, rest⟩, e⟩
    · rintro ⟨m₃, ⟨f₂, m₂, written, rest⟩, e⟩
      exact ⟨f₂, _, ⟨m₂, written, rfl⟩, ih.2 ⟨m₃, rest, e⟩⟩

theorem writePairs_maps {writes : List (Place × Value)} (h : ∀ w ∈ writes, w.1.IsVariable)
    (run : writePairs writes f m = .ok (u, f₁) m₁) : m₁.maps = m.maps := by
  induction writes generalizing f m with
  | nil => rw [(Step.ok_pure.1 run).2.2]
  | cons w writes ih =>
    obtain ⟨f₂, m₂, written, rest⟩ := ok_writePairs_cons.1 run
    have same : m₂.maps = m.maps := by
      obtain ⟨place, v⟩ := w
      have isVariable : place.IsVariable := h _ (List.mem_cons_self ..)
      cases isVariable with
      | blank =>
        obtain ⟨_, got, _⟩ := ok_access_blank.1 written
        rw [(Exec.ok_pure.1 got).2]
      | named => rcases ok_write_named.1 written with ⟨_, _, _, rfl⟩ | ⟨_, _, _, rfl, _⟩ <;> rfl
    exact (ih (fun w hw => h w (by simp [hw])) rest).trans same

theorem isVariable_of_others {writes : List (Place × Value)}
    (h : ∀ w ∈ writes, w.1.IsVariable ∨ w.1.isField = true) :
    ∀ w ∈ others writes, w.1.IsVariable := by
  intro w hw
  obtain ⟨mem, noField⟩ := List.mem_filter.1 hw
  exact (h w mem).resolve_right (by simpa using noField)

-- The fields among some places can be written after all others.
theorem writePairs_split {writes : List (Place × Value)}
    (h : ∀ w ∈ writes, w.1.IsVariable ∨ w.1.isField = true) :
    writePairs writes f m = .ok (u, f₁) m₁ ↔
      ∃ m₂, writePairs (others writes) f m = .ok (u, f₁) m₂ ∧ m₁ = setFields writes m₂ := by
  induction writes generalizing f m with
  | nil => simp [others, setFields]
  | cons w writes ih =>
    have ih {f : Frame} {m : Machine} := @ih f m fun w hw => h w (by simp [hw])
    have plain := isVariable_of_others fun w hw => h w (List.mem_cons_of_mem _ hw)
    obtain ⟨place, v⟩ := w
    simp only [ok_writePairs_cons, ih]
    cases place with
    | field a name =>
      change _ ↔ ∃ m₂ : Machine, writePairs (others writes) f m = _ ∧
        m₁ = setFields writes (m₂.setField a name v)
      simp only [ok_write_field]
      constructor
      · rintro ⟨_, _, ⟨rfl, rfl⟩, m₂, rest, rfl⟩
        obtain ⟨m₃, rest, e⟩ := (writePairs_setField plain).1 rest
        exact ⟨m₃, rest, by rw [e]⟩
      · rintro ⟨m₃, rest, rfl⟩
        exact ⟨f, _, ⟨rfl, rfl⟩, _, (writePairs_setField plain).2 ⟨m₃, rest, rfl⟩, rfl⟩
    | item | temporary => rcases h _ (List.mem_cons_self ..) with h | h <;> cases h
    | blank =>
      change _ ↔ ∃ m₂, writePairs ((.blank, v) :: others writes) f m = _ ∧ m₁ = setFields writes m₂
      simp only [ok_writePairs_cons]
      grind
    | named x =>
      change _ ↔ ∃ m₂, writePairs ((.named x, v) :: others writes) f m = _ ∧
        m₁ = setFields writes m₂
      simp only [ok_writePairs_cons]
      grind

end Place

end FieldAccess
