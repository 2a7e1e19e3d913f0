import FieldAccess.Proofs.InsertedCalls
import FieldAccess.Proofs.UntouchedFields

namespace FieldAccess

-- A record stored as what a relation points at.
def Machine.storeRelated (m : Machine) (r : Nat) (key : String) (id : Value) (other : Nat) : Machine :=
  (m.store r key id).storeExpanded r key (.record other)

section

variable {m : Machine} {a b r other : Nat} {entity target key : String}

theorem Machine.Wraps.select_id (h : m.Wraps a entity r) :
    ∃ v, Exec.select (.object a) "Id" m = .ok v m := by
  rw [Exec.select, Exec.get_bind, h.recordOf?]
  cases (m.object a).fields.get? "Id" with
  | some v => exact ⟨v, rfl⟩
  | none => exact ⟨_, rfl⟩

-- The data and the expansion of a record, both written under one key.
theorem Machine.record_storeRelation (exist : r < m.records.size)
    (distinct : (m.record r).expand.Distinct) (id w : Value) :
    ((m.store r key id).storeExpanded r key w).record r =
      { m.record r with
        data := (m.record r).data.insert key id
        expand := (m.record r).expand.insert key w } := by
  have stored : (m.store r key id).record r = _ := (Machine.record_store exist ..).trans (if_pos rfl)
  have exist' : r < (m.store r key id).records.size := (Machine.records_size_store ..).symm ▸ exist
  have distinct' : ((m.store r key id).record r).expand.Distinct := stored ▸ distinct
  rw [Machine.record_storeExpanded key exist' distinct', if_pos rfl, stored]

theorem Machine.WritesKey.storeRelation (exist : r < m.records.size)
    (distinct : (m.record r).expand.Distinct) (id w : Value) {relation : Prop} (related : relation) :
    m.WritesKey ((m.store r key id).storeExpanded r key w) r key relation := by
  refine .storeExpanded (.store exist id) related exist distinct ?_ _
  rw [Machine.record_store exist, if_pos rfl]

theorem Machine.expand_storeRelated (wraps : m.Wraps a entity r)
    (distinct : (m.record r).expand.Distinct) (id : Value) :
    ((m.storeRelated r key id other).record r).expand.get? key = some (.record other) := by
  rw [Machine.storeRelated, Machine.record_storeRelation wraps.exist distinct]
  exact Table.get?_insert_self ..

end

-- A field with a relation takes nil and wrappers of the entity that it points at.
theorem FieldInfo.accepts_single {info : FieldInfo} {target : String}
    (class_ : info.classification? = some (.relation .single target)) :
    info.accepts .untypedNil ∧ info.accepts (.known (.pointer (.named target))) := by
  have type : info.writeType? = some (.pointer (.named target)) := by
    rw [writeType?, class_]
    rfl
  simp [accepts, type, StaticType.assignableTo, TypeExpr.isNilable]

theorem FieldInfo.accessors?_single {info : FieldInfo} {target : String}
    (class_ : info.classification? = some (.relation .single target)) :
    info.accessors? .standard = some (info.site.singleRelation target) := by
  rw [accessors?, class_]
  rfl

namespace Catalog.Clean

variable {c : Catalog} {enums : EnumTable} {methods : List FuncDecl} {info : FieldInfo}
  {m : Machine} {a b r other rounds depth : Nat} {entity target source : String}
  (clean : c.Clean .standard enums methods) (wraps : m.Wraps a entity r)

include wraps in
-- The identity is read first, so that a nil stops the mutator before anything is stored.
theorem singleRelation_nil :
    (c.program .standard enums methods).invoke rounds (depth + 1)
      (info.site.singleRelation target).mutator (some (.object a)) [.nil] m =
        .error .nilDereference m := by
  rw [AccessorSite.run_singleRelation_mutator, AccessorSite.storeRelation,
    Exec.bind_of_ok (Exec.select_record wraps.holds)]
  rfl

include clean wraps

-- The mutator of a relation, once it is known what the record is to hold.
theorem storeRelation_run {call : CallHandler} {ids records : Exec Value} {id w : Value}
    (read : ids m = .ok id m)
    (read' : ∀ m₁ : Machine, m₁.objects = m.objects → records m₁ = .ok w m₁) :
    AccessorSite.storeRelation (c.program .standard enums methods) call info (.object a) ids records m =
      .ok [] ((m.store r info.key id).storeExpanded r info.key w) := by
  have set : Exec.callMethod (c.program .standard enums methods) call (.record r) "Set"
      [.str info.key, id] m = .ok [] (m.store r info.key id) := rfl
  have wraps₁ : (m.store r info.key id).Wraps a entity r :=
    wraps.of_objects rfl (Machine.records_size_store ..)
  rw [AccessorSite.storeRelation, Exec.bind_of_ok (Exec.select_record wraps.holds),
    Exec.bind_of_ok read, Exec.bind_of_ok set]
  exact AccessorSite.storeExpanded_run clean wraps₁ (read' _ rfl)

variable (rounds depth info target) in
theorem singleRelation_stores (wraps' : m.Wraps b source other) : ∃ id,
    (c.program .standard enums methods).invoke rounds (depth + 1)
      (info.site.singleRelation target).mutator (some (.object a)) [.object b] m =
        .ok [] (m.storeRelated r info.key id other) := by
  obtain ⟨id, read⟩ := wraps'.select_id
  refine ⟨id, ?_⟩
  rw [AccessorSite.run_singleRelation_mutator]
  refine clean.storeRelation_run wraps read fun m₁ same => Exec.select_record ?_
  rw [Machine.object, same]
  exact wraps'.holds

variable (rounds depth target) in
-- A relation that expands to a record gives a new wrapper of it.
theorem singleRelation_wraps (exist : other < m.records.size)
    (expands : (m.record r).expand.get? info.key = some (.record other)) : ∃ m',
    (c.program .standard enums methods).invoke rounds (depth + 1)
      (info.site.singleRelation target).accessor (some (.object a)) [] m =
        .ok [.object m.objects.size] m' ∧
      m'.Wraps m.objects.size target other ∧ m.Grows m' := by
  have value : Record.get? m (m.record r) "ExpandedOne" info.key = some (.record other) := by
    rw [Record.get?, expands]
    rfl
  rw [AccessorSite.run_singleRelation_accessor, bind_assoc,
    Exec.bind_of_ok (clean.getter_run wraps _ (by decide) (by decide) value),
    show Exec.oneResult [_] = pure _ from rfl, pure_bind]
  refine ⟨_, rfl, ⟨?_, ?_, exist⟩, .allocObject rfl⟩
  · simp [Machine.object]
  · simp only [Machine.object, Array.getElem?_push_size, Option.getD_some]
    rfl

end Catalog.Clean

-- What the mutator of a relation stored for a wrapper, the accessor gives back as a wrapper of the very
-- same record, whatever the field held. A nil is taken for the field as well, but it stops the mutator.
theorem Run.relation_round_trip {schema : Schema} {g : Generated} (rounds : Nat)
    (ok : (Run.ofSchema schema .standard []).result = .ok g) :
    ∀ e ∈ (Catalog.build schema .standard {}).value.entities, ∀ f ∈ e.fields, ∀ target,
      f.classification? = some (.relation .single target) →
      f.accepts .untypedNil ∧ f.accepts (.known (.pointer (.named target))) ∧
      ∀ m a r, m.Wraps a e.name r → (m.record r).expand.Distinct →
        g.program.callMethod rounds (.object a) f.mutator [.nil] m = .error .nilDereference m ∧
        ∀ b other, m.Wraps b target other → ∃ m' m'',
          g.program.callMethod rounds (.object a) f.mutator [.object b] m = .ok [] m' ∧
          m.WritesKey m' r f.key f.IsRelation ∧
          g.program.callMethod rounds (.object a) f.accessor [] m' =
            .ok [.object m'.objects.size] m'' ∧
          m''.Wraps m'.objects.size target other ∧ m'.Grows m'' := by
  obtain ⟨clean, program, _⟩ := ofSchema_ok ok
  rw [program]
  intro e he f hf target class_
  obtain ⟨acceptsNil, acceptsWrapper⟩ := FieldInfo.accepts_single class_
  refine ⟨acceptsNil, acceptsWrapper, fun m a r wraps distinct => ?_⟩
  have found := FieldInfo.accessors?_single class_
  refine ⟨?_, fun b other wraps' => ?_⟩
  · rw [(clean.callMethod_accessors he hf wraps found).2, Program.maxDepth_eq]
    exact Catalog.Clean.singleRelation_nil wraps
  · obtain ⟨id, stores⟩ := clean.singleRelation_stores f rounds 255 target wraps wraps'
    have writes : m.WritesKey (m.storeRelated r f.key id other) r f.key f.IsRelation :=
      .storeRelation wraps.exist distinct id _ ⟨_, target, class_⟩
    have wraps₁ := wraps.of_objects writes.objects writes.records
    obtain ⟨m'', gives, wrapped, grows⟩ := clean.singleRelation_wraps rounds 255 target wraps₁
      (writes.records ▸ wraps'.exist) (Machine.expand_storeRelated wraps distinct id)
    refine ⟨_, m'', ?_, writes, ?_, wrapped, grows⟩
    · rw [(clean.callMethod_accessors he hf wraps found).2, Program.maxDepth_eq]
      exact stores
    · rw [(clean.callMethod_accessors he hf wraps₁ found).1, Program.maxDepth_eq]
      exact gives

-- An order and a customer.
def Machine.orderAndCustomer : Machine where
  records := #[⟨"o1", "orders", .empty, .empty⟩, ⟨"c1", "customers", .empty, .empty⟩]
  objects := #[⟨"Order", .ofList [(recordField, .record 0)]⟩,
    ⟨"Customer", .ofList [(recordField, .record 1)]⟩]

theorem Schema.shop_customer :
    ∃ e ∈ (Catalog.build shop .standard {}).value.entities, e.name = "Order" ∧
      ∃ f ∈ e.fields, f.name = "customer" ∧
        f.classification? = some (.relation .single "Customer") := by
  decide +kernel

theorem Run.relation_round_trip_order_customer :
    ∃ (g : Generated) (f : FieldInfo) (m' m'' : Machine),
      (Run.ofSchema Schema.shop .standard []).result = .ok g ∧ f.name = "customer" ∧
      Machine.orderAndCustomer.Wraps 0 "Order" 0 ∧ Machine.orderAndCustomer.Wraps 1 "Customer" 1 ∧
      g.program.callMethod 0 (.object 0) f.mutator [.object 1] .orderAndCustomer = .ok [] m' ∧
      g.program.callMethod 0 (.object 0) f.accessor [] m' = .ok [.object m'.objects.size] m'' ∧
      m''.Wraps m'.objects.size "Customer" 1 := by
  obtain ⟨g, ok⟩ := Run.shop_ok
  obtain ⟨e, he, order, f, hf, named, class_⟩ := Schema.shop_customer
  have wraps : Machine.orderAndCustomer.Wraps 0 e.name 0 := ⟨order.symm, rfl, by decide⟩
  have wraps' : Machine.orderAndCustomer.Wraps 1 "Customer" 1 := ⟨rfl, rfl, by decide⟩
  obtain ⟨_, _, trip⟩ := Run.relation_round_trip 0 ok e he f hf "Customer" class_
  obtain ⟨m', m'', set, _, get, wrapped, _⟩ := (trip _ 0 0 wraps .nil).2 1 1 wraps'
  exact ⟨g, f, m', m'', ok, named, order ▸ wraps, wraps', set, get, wrapped⟩

-- The customer of an order may be set to nil, but the mutator fails on it.
theorem Run.relation_not_cleared_order_customer :
    ∃ (g : Generated) (f : FieldInfo),
      (Run.ofSchema Schema.shop .standard []).result = .ok g ∧ f.name = "customer" ∧
      f.accepts .untypedNil ∧ Machine.orderAndCustomer.Wraps 0 "Order" 0 ∧
      ¬∃ m' m'', g.program.callMethod 0 (.object 0) f.mutator [.nil] .orderAndCustomer = .ok [] m' ∧
        g.program.callMethod 0 (.object 0) f.accessor [] m' = .ok [.nil] m'' := by
  obtain ⟨g, ok⟩ := Run.shop_ok
  obtain ⟨clean, program, _⟩ := Run.ofSchema_ok ok
  obtain ⟨e, he, order, f, hf, named, class_⟩ := Schema.shop_customer
  have wraps : Machine.orderAndCustomer.Wraps 0 e.name 0 := ⟨order.symm, rfl, by decide⟩
  refine ⟨g, f, ok, named, (FieldInfo.accepts_single class_).1, order ▸ wraps, ?_⟩
  rintro ⟨m', _, set, _⟩
  rw [program, (clean.callMethod_accessors he hf wraps (FieldInfo.accessors?_single class_)).2,
    Program.maxDepth_eq, Catalog.Clean.singleRelation_nil wraps] at set
  cases set

end FieldAccess
