import FieldAccess.Proofs.RelationRoundTrip

namespace FieldAccess

-- An object of an entity, and the record that it is matched with.
structure Node where
  entity : String
  object : Nat
  record : Nat

-- What a field or a variable holds: an integer, or a pointer to an object of an entity.
inductive Kind where
  | int
  | pointer (entity : String)

namespace Kind

def classification : Kind → Classification
  | int => .primitive "int" "GetInt"
  | pointer entity => .relation .single entity

def type : Kind → TypeExpr
  | int => .int
  | pointer entity => .pointer (.named entity)

-- A proxied field that holds values of the kind.
structure Field (k : Kind) (info : FieldInfo) : Prop where
  access : info.access = .proxied k.classification
  declared : info.declaredType? = some k.type

theorem Field.classified {k : Kind} {info : FieldInfo} (h : k.Field info) :
    info.classification? = some k.classification := by
  rw [FieldInfo.classification?, h.access]
  rfl

theorem Field.isProxied {k : Kind} {info : FieldInfo} (h : k.Field info) : info.isProxied :=
  FieldInfo.isProxied_iff.2 ⟨_, h.classified⟩

theorem Field.kind_eq {k k' : Kind} {info : FieldInfo} (h : k.Field info) (h' : k'.Field info) :
    k = k' := by
  have same := h.classified.symm.trans h'.classified
  cases k <;> cases k' <;> simp_all [classification]

section

variable (nodes : List Node)

-- A pointer is nil or points into the graph.
def Has : Kind → Value → Prop
  | int, v => ∃ a, v = .int a
  | pointer entity, v => v = .nil ∨ ∃ n ∈ nodes, n.entity = entity ∧ v = .object n.object

-- A record has an integer under the key, and it expands to the record of an object exactly when the
-- pointer points at that object.
def StoredIn (r : Record) (key : String) : Kind → Value → Prop
  | int, v => r.data.get? key = some v
  | pointer _, v =>
    ∀ n ∈ nodes, v = .object n.object ↔ r.expand.get? key = some (.record n.record)

variable {nodes} {k : Kind} {r r' : Record} {key : String} {v : Value}

theorem StoredIn.of_sameAt (h : k.StoredIn nodes r key v) (same : r.SameAt r' key) :
    k.StoredIn nodes r' key v := by
  cases k with
  | int => exact same.data.trans h
  | pointer entity => exact fun n mem => same.expand ▸ h n mem

end

end Kind

-- Different objects are matched with different records.
def Node.Apart (nodes : List Node) : Prop :=
  ∀ n ∈ nodes, ∀ u ∈ nodes, n.object = u.object ∨ n.record = u.record → n = u

-- Different fields of an entity are stored under different keys.
def Catalog.KeysApart (c : Catalog) : Prop :=
  ∀ e ∈ c.entities, ∀ f ∈ e.fields, ∀ f' ∈ e.fields, f.isProxied → f'.isProxied →
    f.key = f'.key → f = f'

section

variable (c : Catalog) (nodes : List Node) (m m' : Machine)

structure Node.Matched (n : Node) : Prop where
  object : n.object < m.objects.size
  record : n.record < m'.records.size
  distinct : (m'.record n.record).expand.Distinct
  fields : ∀ {k : Kind} {name info}, c.field? n.entity name = some info → k.Field info →
    ∃ v, (m.object n.object).fields.get? name = some v ∧ k.Has nodes v ∧
      k.StoredIn nodes (m'.record n.record) info.key v

-- The objects of the one machine form a graph that matches the records of the other.
structure Matching : Prop where
  apart : Node.Apart nodes
  matched : ∀ n ∈ nodes, n.Matched c nodes m m'

end

-- Objects and records may be new or different, but objects that are there stay as they are.
structure Machine.Later (m m' : Machine) : Prop where
  objectsLe : m.objects.size ≤ m'.objects.size
  object : ∀ a < m.objects.size, m'.object a = m.object a
  records : m'.records.size = m.records.size

section

variable {m m₁ m₂ : Machine}

theorem Machine.Later.refl (m : Machine) : m.Later m :=
  ⟨Nat.le_refl _, fun _ _ => rfl, rfl⟩

theorem Machine.Later.trans (h : m.Later m₁) (h' : m₁.Later m₂) : m.Later m₂ where
  objectsLe := Nat.le_trans h.objectsLe h'.objectsLe
  object a ha := (h'.object a (Nat.lt_of_lt_of_le ha h.objectsLe)).trans (h.object a ha)
  records := h'.records.trans h.records

theorem Machine.Grows.later (h : m.Grows m₁) : m.Later m₁ where
  objectsLe := h.objectsLe
  object := h.object
  records := congrArg Array.size h.records

theorem Machine.WritesKey.later {r : Nat} {key : String} {relation : Prop}
    (h : m.WritesKey m₁ r key relation) : m.Later m₁ where
  objectsLe := Nat.le_of_eq (congrArg Array.size h.objects.symm)
  object a _ := by rw [Machine.object, Machine.object, h.objects]
  records := h.records

variable {w r : Nat} {entity : String}

theorem Machine.Wraps.later (h : m.Wraps w entity r) (later : m.Later m₁) : m₁.Wraps w entity r where
  type := by rw [later.object w h.lt_size]; exact h.type
  holds := by rw [later.object w h.lt_size]; exact h.holds
  exist := later.records ▸ h.exist

end

-- What stands for a value in the machine with the records: a wrapper of its record for an object.
-- Nothing is ever read through a nil, so anything may stand for one.
inductive Stands (nodes : List Node) (m' : Machine) : Value → Value → Prop
  | int (a : Int64) : Stands nodes m' (.int a) (.int a)
  | object {n : Node} {w : Nat} : n ∈ nodes → m'.Wraps w n.entity n.record →
      Stands nodes m' (.object n.object) (.object w)
  | nil (v' : Value) : Stands nodes m' .nil v'

section

variable {c : Catalog} {nodes : List Node} {m m' m'₁ : Machine} {n : Node} {v v' : Value} {k : Kind}

theorem Stands.later (h : Stands nodes m' v v') (later : m'.Later m'₁) : Stands nodes m'₁ v v' := by
  cases h with
  | int a => exact .int a
  | object mem wraps => exact .object mem (wraps.later later)
  | nil v' => exact .nil v'

theorem Node.Matched.grow (h : n.Matched c nodes m m') (grows : m'.Grows m'₁) :
    n.Matched c nodes m m'₁ where
  object := h.object
  record := by rw [grows.records]; exact h.record
  distinct := by rw [grows.record]; exact h.distinct
  fields := by rw [grows.record]; exact h.fields

theorem Matching.grow (h : Matching c nodes m m') (grows : m'.Grows m'₁) :
    Matching c nodes m m'₁ :=
  ⟨h.apart, fun n mem => (h.matched n mem).grow grows⟩

-- Two fields of an entity that share a key are one field.
theorem Catalog.KeysApart.name_eq (apart : c.KeysApart) {entity name name' : String}
    {info info' : FieldInfo} {k' : Kind} (found : c.field? entity name = some info)
    (field : k.Field info) (found' : c.field? entity name' = some info') (field' : k'.Field info')
    (same : info.key = info'.key) : name = name' := by
  obtain ⟨e, he, hf⟩ := Option.bind_eq_some_iff.1 found
  obtain ⟨e', he', hf'⟩ := Option.bind_eq_some_iff.1 found'
  obtain rfl := Option.some.inj (he.symm.trans he')
  have one := apart e (Catalog.mem_of_entity? he) info (List.mem_of_find?_eq_some hf) info'
    (List.mem_of_find?_eq_some hf') field.isProxied field'.isProxied same
  rw [← name_of_field? found, ← name_of_field? found', one]

-- The matching is kept when a field of an object is set and the record of the object gets the same
-- under the key of the field.
theorem Matching.write (h : Matching c nodes m m') (apart : c.KeysApart) (mem : n ∈ nodes)
    {name : String} {info : FieldInfo} {relation : Prop}
    (found : c.field? n.entity name = some info) (field : k.Field info) (has : k.Has nodes v)
    (writes : m'.WritesKey m'₁ n.record info.key relation)
    (stored : k.StoredIn nodes (m'₁.record n.record) info.key v) :
    Matching c nodes (m.setField n.object name v) m'₁ := by
  have exist := (h.matched n mem).object
  refine ⟨h.apart, fun u hu => ?_⟩
  have old := h.matched u hu
  refine {
    object := by simpa [Machine.setField, Machine.setObject] using old.object
    record := writes.records ▸ old.record
    distinct := ?_
    fields := fun {k' name' info'} found' field' => ?_ }
  · by_cases same : u.record = n.record
    · rcases same ▸ writes.expand with kept | ⟨_, w, set⟩
      · exact kept ▸ old.distinct
      · exact set ▸ old.distinct.insert ..
    · exact writes.others _ same ▸ old.distinct
  · obtain ⟨v', held, has', stored'⟩ := old.fields found' field'
    rw [Machine.object_setField exist]
    by_cases same : u.object = n.object
    · obtain rfl := h.apart u hu n mem (.inl same)
      rw [if_pos rfl]
      by_cases named : name' = name
      · subst named
        obtain rfl := Option.some.inj (found.symm.trans found')
        obtain rfl := field.kind_eq field'
        exact ⟨v, Table.get?_insert_self .., has, stored⟩
      · have other : info'.key ≠ info.key := fun e => named (apart.name_eq found' field' found field e)
        refine ⟨v', ?_, has', stored'.of_sameAt (writes.sameAt other)⟩
        rwa [Table.get?_insert, if_neg named]
    · have other : u.record ≠ n.record :=
        fun e => same (congrArg Node.object (h.apart u hu n mem (.inr e)))
      rw [if_neg same]
      exact ⟨v', held, has', by rwa [writes.others _ other]⟩

end

-- Accessors give what stands for the values of fields, and mutators write what stands for a value.
structure Catalog.ServedBy (c : Catalog) (p : Program) (call : CallHandler) : Prop where
  read : ∀ {k : Kind} {entity name info nodes m w r v}, c.field? entity name = some info →
    k.Field info → m.Wraps w entity r → (∀ n ∈ nodes, n.record < m.records.size) →
    k.Has nodes v → k.StoredIn nodes (m.record r) info.key v →
    ∃ v' m₁, Exec.callMethod p call (.object w) info.accessor [] m = .ok [v'] m₁ ∧ m.Grows m₁ ∧
      Stands nodes m₁ v v'
  write : ∀ {k : Kind} {entity name info nodes m w r v v'}, c.field? entity name = some info →
    k.Field info → m.Wraps w entity r → (m.record r).expand.Distinct → Node.Apart nodes →
    k.Has nodes v → v ≠ .nil → Stands nodes m v v' →
    ∃ m₁, Exec.callMethod p call (.object w) info.mutator [v'] m = .ok [] m₁ ∧
      m.WritesKey m₁ r info.key info.IsRelation ∧ k.StoredIn nodes (m₁.record r) info.key v

namespace Kind

-- The accessor and the mutator of a field of the kind.
def pair (info : FieldInfo) : Kind → AccessorPair
  | int => info.site.primitive "GetInt" .int
  | pointer entity => info.site.singleRelation entity

theorem Field.accessors {k : Kind} {info : FieldInfo} (h : k.Field info) :
    info.accessors? .standard = some (k.pair info) := by
  rw [FieldInfo.accessors?, h.classified]
  cases k with
  | int =>
    change info.declaredType?.map _ = _
    rw [h.declared]
    rfl
  | pointer => rfl

end Kind

section

variable {c : Catalog} {enums : EnumTable} {methods : List FuncDecl} {nodes : List Node}
  {info : FieldInfo} {m : Machine} {w r rounds depth : Nat} {entity : String} {v v' : Value}
  (clean : c.Clean .standard enums methods)

include clean

theorem Catalog.Clean.int_read (wraps : m.Wraps w entity r)
    (has : Kind.int.Has nodes v) (stored : Kind.int.StoredIn nodes (m.record r) info.key v) :
    ∃ v' m₁, (c.program .standard enums methods).invoke rounds (depth + 1)
        (Kind.int.pair info).accessor (some (.object w)) [] m = .ok [v'] m₁ ∧ m.Grows m₁ ∧
      Stands nodes m₁ v v' := by
  obtain ⟨a, rfl⟩ := has
  refine ⟨.int a, m, ?_, .refl m, .int a⟩
  rw [Kind.pair, AccessorSite.run_primitive_accessor]
  refine clean.getter_run wraps _ (by decide) (by decide) ?_
  rw [Record.get?, show (m.record r).data.get? info.key = _ from stored]
  rfl

theorem Catalog.Clean.int_write (wraps : m.Wraps w entity r) (has : Kind.int.Has nodes v)
    (stands : Stands nodes m v v') :
    ∃ m₁, (c.program .standard enums methods).invoke rounds (depth + 1)
        (Kind.int.pair info).mutator (some (.object w)) [v'] m = .ok [] m₁ ∧
      m.WritesKey m₁ r info.key info.IsRelation ∧
      Kind.int.StoredIn nodes (m₁.record r) info.key v := by
  obtain ⟨a, rfl⟩ := has
  cases stands
  refine ⟨m.store r info.key (.int a), ?_, .store wraps.exist _, ?_⟩
  · rw [Kind.pair, AccessorSite.run_primitive_mutator]
    exact Exec.bind_of_ok ((clean.callMethod_record wraps (by decide)).trans rfl) _
  · rw [Machine.record_store wraps.exist, if_pos rfl]
    exact Table.get?_insert_self ..

-- A relation that expands to nothing gives a nil, any other a new wrapper.
theorem Catalog.Clean.pointer_read {target : String} (wraps : m.Wraps w entity r)
    (exist : ∀ n ∈ nodes, n.record < m.records.size) (has : (Kind.pointer target).Has nodes v)
    (stored : (Kind.pointer target).StoredIn nodes (m.record r) info.key v) :
    ∃ v' m₁, (c.program .standard enums methods).invoke rounds (depth + 1)
        ((Kind.pointer target).pair info).accessor (some (.object w)) [] m = .ok [v'] m₁ ∧
      m.Grows m₁ ∧ Stands nodes m₁ v v' := by
  rcases has with rfl | ⟨n, mem, rfl, rfl⟩
  · have read : Exec.callMethod (c.program .standard enums methods)
        ((c.program .standard enums methods).invoke rounds depth) (.object w) "ExpandedOne"
        [.str info.key] m = .ok [Record.expandedOne ((m.record r).expand.get? info.key)] m :=
      clean.getter_run wraps _ (by decide) (by decide) rfl
    rw [Kind.pair, AccessorSite.run_singleRelation_accessor, bind_assoc, Exec.bind_of_ok read,
      show Exec.oneResult [_] = pure _ from rfl, pure_bind]
    cases (Record.expandedOne ((m.record r).expand.get? info.key)).equal .nil with
    | true => exact ⟨.nil, m, rfl, .refl m, .nil _⟩
    | false => exact ⟨_, _, rfl, .allocObject rfl, .nil _⟩
  · obtain ⟨m₁, gives, wrapped, grows⟩ := clean.singleRelation_wraps rounds depth n.entity wraps
      (exist n mem) ((stored n mem).1 rfl)
    exact ⟨_, m₁, gives, grows, .object mem wrapped⟩

theorem Catalog.Clean.pointer_write {target : String} (wraps : m.Wraps w entity r)
    (related : info.IsRelation) (distinct : (m.record r).expand.Distinct) (apart : Node.Apart nodes)
    (has : (Kind.pointer target).Has nodes v) (set : v ≠ .nil) (stands : Stands nodes m v v') :
    ∃ m₁, (c.program .standard enums methods).invoke rounds (depth + 1)
        ((Kind.pointer target).pair info).mutator (some (.object w)) [v'] m = .ok [] m₁ ∧
      m.WritesKey m₁ r info.key info.IsRelation ∧
      (Kind.pointer target).StoredIn nodes (m₁.record r) info.key v := by
  rcases has with rfl | ⟨n, mem, rfl, rfl⟩
  · exact absurd rfl set
  generalize hv : Value.object n.object = v at stands
  cases stands with
  | int | nil => cases hv
  | @object u w' hu wraps' =>
    obtain rfl := apart n mem u hu (.inl (Value.object.inj hv))
    obtain ⟨id, stores⟩ := clean.singleRelation_stores info rounds depth n.entity wraps wraps'
    refine ⟨_, stores, .storeRelation wraps.exist distinct id _ related, fun u hu => ?_⟩
    rw [Machine.expand_storeRelated wraps distinct, Value.object.injEq, Option.some.injEq,
      Value.record.injEq]
    exact ⟨fun e => congrArg _ (apart n mem u hu (.inl e)),
      fun e => congrArg _ (apart n mem u hu (.inr e))⟩

variable (rounds depth) in
theorem Catalog.Clean.servedBy : c.ServedBy (c.program .standard enums methods)
    ((c.program .standard enums methods).invoke rounds (depth + 1)) where
  read {k entity name info nodes m w r v} found field wraps exist has stored := by
    obtain ⟨e, he, rfl, hf⟩ := Catalog.mem_of_field? found
    rw [(clean.callMethod_pair he hf wraps field.accessors).1]
    cases k with
    | int => exact clean.int_read wraps has stored
    | pointer target => exact clean.pointer_read wraps exist has stored
  write {k entity name info nodes m w r v v'} found field wraps distinct apart has set stands := by
    obtain ⟨e, he, rfl, hf⟩ := Catalog.mem_of_field? found
    rw [(clean.callMethod_pair he hf wraps field.accessors).2]
    cases k with
    | int => exact clean.int_write wraps has stands
    | pointer target =>
      exact clean.pointer_write wraps ⟨_, target, field.classified⟩ distinct apart has set stands

end

end FieldAccess
