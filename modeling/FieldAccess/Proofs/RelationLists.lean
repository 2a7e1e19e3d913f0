import FieldAccess.Proofs.EnumRoundTrip
import FieldAccess.Proofs.RelationRoundTrip
import FieldAccess.Proofs.Success

namespace FieldAccess

-- A wrapper whose id is that of its record.
structure Machine.Embeds (m : Machine) (wrapper : Nat) (entity : String) (record : Nat) : Prop
    extends m.Wraps wrapper entity record where
  plain : (m.object wrapper).fields.get? "Id" = none

section

variable {m m' : Machine} {b r : Nat} {entity : String}

theorem Machine.Embeds.select_id (h : m.Embeds b entity r) :
    Exec.select (.object b) "Id" m = .ok (.str (m.record r).id) m := by
  rw [Exec.select, Exec.get_bind, h.recordOf?, h.plain]
  rfl

end

namespace Exec

variable (done rest : List Value) (old : Value)

-- Where a list that is filled from the front goes on.
theorem position_next (few : done.length < 0x8000000000000000) :
    Value.position? (Int64.ofNat done.length) (done ++ old :: rest).length = some done.length := by
  have index : (Int64.ofNat done.length).toInt = done.length := Int64.toInt_ofNat_of_lt few
  have start : (0 : Int64) ≤ Int64.ofNat done.length := by
    rw [Int64.le_iff_toInt_le, index]
    simp
  rw [Value.position?, index]
  simp [start]

theorem setAt_next (few : done.length < 0x8000000000000000) (v : Value) :
    setAt (done ++ old :: rest) (.int (Int64.ofNat done.length)) v = pure (done ++ v :: rest) := by
  rw [setAt, show orFail _ (Value.int _).int? = pure _ from rfl, pure_bind,
    position_next _ _ _ few]
  simp

theorem item_next (few : done.length < 0x8000000000000000) :
    item (.slice (done ++ old :: rest)) (.int (Int64.ofNat done.length)) = pure old := by
  rw [item, itemAt, show orFail _ (Value.int _).int? = pure _ from rfl, pure_bind,
    position_next _ _ _ few]
  simp [orFail]

theorem lengthIn_run {p : Program} {f : Frame} {m : Machine} (items : List Value)
    (free : f.get? "len" = none) (free' : m.globals.get? "len" = none) :
    lengthIn p f (.slice items) m = .ok (.int (Int64.ofNat items.length)) m := by
  have unbound : binding? f "len" m = .ok none m := by
    change EStateM.Result.ok ((f.get? "len").or (m.globals.get? "len")) m = _
    rw [free, free']
    rfl
  rw [lengthIn, bind_of_ok unbound]
  rfl

theorem lengthIn_hidden {p : Program} {f : Frame} {m : Machine} {w : Value}
    (free : f.get? "len" = none) (hidden : m.globals.get? "len" = some w)
    (type : p.underlying? "len" = none) (v : Value) :
    lengthIn p f v m = .error (.undefined "len") m := by
  have bound : binding? f "len" m = .ok (some w) m := by
    change EStateM.Result.ok ((f.get? "len").or (m.globals.get? "len")) m = _
    rw [free, hidden]
    rfl
  rw [lengthIn, bind_of_ok bound]
  simp only [Option.isSome_some, if_true, type, Option.isSome_none, Bool.false_eq_true, if_false]
  rfl

-- A list is made as long as a length tells.
theorem count_run {n : Nat} (few : n < 0x8000000000000000) :
    ((Value.int (Int64.ofNat n)).int?.getD 0).toInt.toNat = n := by
  simp [Value.int?, Int64.toInt_ofNat_of_lt few]

end Exec

-- The items of a list with their places, as a loop visits them.
def Step.placed (items : List Value) (start : Nat) : List (Value × Value) :=
  (items.zipIdx start).map fun entry => (.int (Int64.ofNat entry.2), entry.1)

theorem Step.itemsOf_slice (items : List Value) :
    itemsOf (.slice items) = pure (placed items 0) := rfl

namespace AccessorSite

-- The parameter hides no builtin function that it is not called like.
theorem get?_mutatorFrame_builtin {info : FieldInfo} {a : Nat} {v : Value} {x : String}
    (param : info.site.param ∉ ["len", "make"]) (hx : x ∈ ["len", "make"]) :
    (⟨[mutatorFrame info (.object a) v]⟩ : Frame).get? x = none := by
  have other : ∀ x ∈ ["len", "make"], x ≠ "p" := by decide
  exact get?_mutatorFrame_other (other x hx) fun same => param (same ▸ hx)

variable {m : Machine} {target : String} {bs rs : List Nat}

-- The two lists of a mutator when the wrappers of some records are done and others are left.
def splitLists (m : Machine) (done : List Nat) (left : Nat) : List Value × List Value :=
  (done.map .record ++ List.replicate left .nil,
   done.map (fun r => .str (m.record r).id) ++ List.replicate left (.str ""))

theorem splitWrapper_next {b r : Nat} (embeds : m.Embeds b target r) (done : List Nat) (left : Nat)
    (few : done.length < 0x8000000000000000) :
    splitWrapper (splitLists m done (left + 1)) (.int (Int64.ofNat done.length), .object b) m =
      .ok (splitLists m (done ++ [r]) left) m := by
  have records := Exec.setAt_next (done.map Value.record) (List.replicate left .nil) .nil
    (by simpa using few) (.record r)
  have ids := Exec.setAt_next (done.map fun r => Value.str (m.record r).id)
    (List.replicate left (.str "")) (.str "") (by simpa using few) (.str (m.record r).id)
  rw [List.length_map] at records ids
  rw [splitWrapper, splitLists, List.replicate_succ, List.replicate_succ,
    Exec.bind_of_ok (Exec.select_record embeds.holds), records, pure_bind,
    Exec.bind_of_ok embeds.select_id, ids, pure_bind, splitLists]
  simp only [List.map_append, List.map_cons, List.map_nil, List.append_assoc, List.cons_append,
    List.nil_append]
  rfl

-- The loop of the mutator, from any round on.
theorem splitWrapper_loop (embed : List.Forall₂ (m.Embeds · target ·) bs rs) (done : List Nat)
    (few : done.length + bs.length < 0x8000000000000000) :
    (Step.placed (bs.map .object) done.length).foldlM splitWrapper (splitLists m done bs.length) m =
      .ok (splitLists m (done ++ rs) 0) m := by
  induction embed generalizing done with
  | nil =>
    rw [List.append_nil]
    rfl
  | @cons b r bs rs head _ ih =>
    rw [List.length_cons] at few
    have next := splitWrapper_next head done bs.length (by omega)
    have rest := ih (done ++ [r]) (by simp; omega)
    rw [List.length_append, List.length_singleton, List.append_assoc] at rest
    exact (Exec.bind_of_ok next _).trans rest

theorem splitWrapper_all (embed : List.Forall₂ (m.Embeds · target ·) bs rs)
    (few : bs.length < 0x8000000000000000) :
    (Step.placed (bs.map .object) 0).foldlM splitWrapper
      (List.replicate bs.length .nil, List.replicate bs.length (.str "")) m =
      .ok (rs.map .record, rs.map fun r => .str (m.record r).id) m := by
  simpa [splitLists] using splitWrapper_loop embed [] (by simpa using few)

end AccessorSite

-- A machine with a new wrapper for each of some records.
def Machine.wrapAll (m : Machine) (target : String) (rs : List Nat) : Machine :=
  { m with objects := m.objects ++
      (rs.map fun r => (⟨target, .ofList [(recordField, .record r)]⟩ : Object)).toArray }

section

variable {m : Machine} {target : String} {rs : List Nat}

theorem Machine.Grows.wrapAll : m.Grows (m.wrapAll target rs) := by
  refine ⟨Nat.le_refl _, fun _ _ => rfl, by simp [Machine.wrapAll], fun a ha => ?_, rfl, rfl⟩
  simp [Machine.wrapAll, Machine.object, Array.getElem?_append_left ha]

-- The new wrappers have addresses in order.
theorem Machine.wraps_wrapAll (exist : ∀ r ∈ rs, r < m.records.size) :
    List.Forall₂ ((m.wrapAll target rs).Wraps · target ·)
      (List.range' m.objects.size rs.length) rs := by
  refine List.forall₂_iff_get.2 ⟨by simp, fun i hi hi' => ?_⟩
  have object : (m.wrapAll target rs).object (m.objects.size + i) =
      ⟨target, .ofList [(recordField, .record rs[i])]⟩ := by
    simp [Machine.wrapAll, Machine.object, hi']
  rw [List.get_eq_getElem, List.getElem_range', Nat.one_mul, List.get_eq_getElem]
  exact ⟨by rw [object], by rw [object]; rfl, exist _ (List.getElem_mem ..)⟩

-- A field of an object that was made last.
theorem Machine.setField_push (o : Object) (name : String) (v : Value) :
    ({ m with objects := m.objects.push o } : Machine).setField m.objects.size name v =
      { m with objects := m.objects.push { o with fields := o.fields.insert name v } } := by
  have made : ({ m with objects := m.objects.push o } : Machine).object m.objects.size = o := by
    simp [Machine.object]
  rw [Machine.setField, made, Machine.setObject]
  congr 1
  exact Array.ext' (by simp)

theorem Machine.wrapAll_concat (r : Nat) :
    let m₁ := m.wrapAll target rs
    ({ m₁ with objects := m₁.objects.push ⟨target, .ofList [(recordField, .record r)]⟩ } : Machine) =
      m.wrapAll target (rs ++ [r]) := by
  simp [Machine.wrapAll]

end

namespace AccessorSite

variable {p : Program} {m : Machine} {target : String}

-- The list of an accessor when it has made the wrappers of some records and others are left.
def wrapperList (m : Machine) (done left : Nat) : List Value :=
  (List.range' m.objects.size done).map .object ++ List.replicate left .nil

variable (p m target) in
theorem wrapItem_next (done rest : List Nat) (r left : Nat) (v : Value)
    (few : done.length < 0x8000000000000000) :
    wrapItem p target (.slice ((done ++ r :: rest).map .record))
        (wrapperList m done.length (left + 1)) (.int (Int64.ofNat done.length), v)
        (m.wrapAll target done) =
      .ok (wrapperList m (done.length + 1) left) (m.wrapAll target (done ++ [r])) := by
  have size : (m.wrapAll target done).objects.size = m.objects.size + done.length := by
    simp [Machine.wrapAll]
  let fields : Table String :=
    if p.isWrapper target then .ofList [(recordField, .nil)] else .empty
  have filled : fields.insert recordField (.record r) = .ofList [(recordField, .record r)] := by
    dsimp only [fields]
    split <;> rfl
  have blank : Exec.structLiteral p (.named target) [] (m.wrapAll target done) =
      .ok (.object (m.objects.size + done.length)) { m.wrapAll target done with
        objects := (m.wrapAll target done).objects.push ⟨target, fields⟩ } := by
    rw [← size]
    rfl
  let finished := (List.range' m.objects.size done.length).map Value.object
  have wrappers (old v : Value) := Exec.setAt_next finished (List.replicate left .nil) old
    (by simpa [finished] using few) v
  have made (old : Value) := Exec.item_next finished (List.replicate left .nil) old
    (by simpa [finished] using few)
  have related := Exec.item_next (done.map Value.record) (rest.map .record) (.record r)
    (by simpa using few)
  simp only [finished, List.length_map, List.length_range'] at wrappers made related
  rw [wrapItem, wrapperList, List.replicate_succ, Exec.bind_of_ok blank, wrappers, pure_bind, made,
    pure_bind, show Exec.address (.object _) _ = pure _ from rfl, pure_bind, List.map_append,
    List.map_cons, related, pure_bind]
  change EStateM.Result.ok _ (Machine.setField _ (m.objects.size + done.length) recordField _) = _
  rw [← size, Machine.setField_push, filled, Machine.wrapAll_concat, size, wrapperList,
    List.range'_concat, List.map_append, List.append_assoc, Nat.one_mul]
  rfl

variable (p m target) in
-- The loop of the accessor, from any round on.
theorem wrapItem_loop (rs done : List Nat)
    (few : done.length + rs.length < 0x8000000000000000) :
    (Step.placed (rs.map .record) done.length).foldlM
      (wrapItem p target (.slice ((done ++ rs).map .record)))
      (wrapperList m done.length rs.length) (m.wrapAll target done) =
      .ok (wrapperList m (done.length + rs.length) 0) (m.wrapAll target (done ++ rs)) := by
  induction rs generalizing done with
  | nil =>
    rw [List.append_nil]
    rfl
  | cons r rs ih =>
    rw [List.length_cons] at few
    have next := wrapItem_next p m target done rs r rs.length (.record r) (by omega)
    have rest := ih (done ++ [r]) (by simp; omega)
    rw [List.length_append, List.length_singleton, List.append_assoc, Nat.add_assoc,
      Nat.add_comm 1] at rest
    exact (Exec.bind_of_ok next _).trans rest

theorem wrapItem_all (rs : List Nat) (few : rs.length < 0x8000000000000000) :
    (Step.placed (rs.map .record) 0).foldlM
      (wrapItem p target (.slice (rs.map .record))) (List.replicate rs.length .nil) m =
      .ok ((List.range' m.objects.size rs.length).map .object) (m.wrapAll target rs) := by
  have start : m.wrapAll target [] = m := by simp [Machine.wrapAll]
  have all := wrapItem_loop p m target rs [] (by simpa using few)
  simpa [wrapperList, start] using all

end AccessorSite

namespace Catalog.Clean

variable {c : Catalog} {enums : EnumTable} {methods : List FuncDecl} {info : FieldInfo}
  {m : Machine} {a r rounds depth : Nat} {entity target : String} {bs rs : List Nat}
  (clean : c.Clean .standard enums methods) (wraps : m.Wraps a entity r)
  (visible : ∀ x ∈ ["len", "make"], m.globals.get? x = none)

include clean wraps visible

variable (rounds depth) in
theorem multiRelation_stores (param : info.site.param ∉ ["len", "make"])
    (embed : List.Forall₂ (m.Embeds · target ·) bs rs) (few : bs.length < 0x8000000000000000) :
    (c.program .standard enums methods).invoke rounds (depth + 1)
      (info.site.multiRelation target).mutator (some (.object a)) [.slice (bs.map .object)] m =
        .ok [] ((m.store r info.key (.slice (rs.map fun r => .str (m.record r).id))).storeExpanded r
          info.key (.slice (rs.map .record))) := by
  have free (x : String) (hx : x ∈ ["len", "make"]) :=
    AccessorSite.get?_mutatorFrame_builtin (a := a) (v := .slice (bs.map .object)) param hx
  have make (fault : ExecFault) := Exec.guard_run (p := c.program .standard enums methods)
    (free "make" (by simp)) (visible "make" (by simp)) fault
  have length := Exec.lengthIn_run (p := c.program .standard enums methods)
    (bs.map Value.object) (free "len" (by simp)) (visible "len" (by simp))
  have filled := AccessorSite.splitWrapper_all embed few
  rw [AccessorSite.run_multiRelation_mutator clean.plain]
  dsimp only
  rw [Exec.bind_of_ok (make _), Exec.bind_of_ok length, Exec.bind_of_ok (make _),
    Exec.bind_of_ok length, Step.itemsOf_slice, pure_bind,
    Exec.count_run (by simpa using few), List.length_map, Exec.bind_of_ok filled]
  exact clean.storeRelation_run wraps rfl fun _ _ => rfl

variable (rounds depth) in
omit wraps visible in
-- Where a variable of the package is called like the builtin function, the mutator stops before it
-- reads the list.
theorem multiRelation_refused (make : m.globals.get? "make" = none)
    (hidden : (m.globals.get? "len").isSome)
    (type : (c.program .standard enums methods).underlying? "len" = none)
    (param : info.site.param ∉ ["len", "make"]) (v : Value) :
    (c.program .standard enums methods).invoke rounds (depth + 1)
      (info.site.multiRelation target).mutator (some (.object a)) [v] m =
        .error (.undefined "len") m := by
  have free (x : String) (hx : x ∈ ["len", "make"]) :=
    AccessorSite.get?_mutatorFrame_builtin (a := a) (v := v) param hx
  obtain ⟨w, global⟩ := Option.isSome_iff_exists.1 hidden
  rw [AccessorSite.run_multiRelation_mutator clean.plain]
  dsimp only
  rw [Exec.bind_of_ok (Exec.guard_run (free "make" (by simp)) make _)]
  exact Exec.bind_of_error (Exec.lengthIn_hidden (free "len" (by simp)) global type v) _

variable (rounds depth) in
theorem multiRelation_wraps (few : rs.length < 0x8000000000000000)
    (expands : (m.record r).expand.get? info.key = some (.slice (rs.map .record))) :
    (c.program .standard enums methods).invoke rounds (depth + 1)
      (info.site.multiRelation target).accessor (some (.object a)) [] m =
        .ok [.slice ((List.range' m.objects.size rs.length).map .object)] (m.wrapAll target rs) := by
  have value : Record.get? m (m.record r) "ExpandedAll" info.key =
      some (.slice (rs.map .record)) := by
    rw [Record.get?, expands]
    rfl
  have free (x : String) (hx : x ∈ ["len", "make"]) :
      (⟨[AccessorSite.accessorFrame (.object a)]⟩ : Frame).get? x = none := by
    have other : ∀ x ∈ ["len", "make"], x ≠ "p" := by decide
    exact AccessorSite.get?_accessorFrame_other (other x hx)
  have make (fault : ExecFault) := Exec.guard_run (p := c.program .standard enums methods)
    (free "make" (by simp)) (visible "make" (by simp)) fault
  have length := Exec.lengthIn_run (p := c.program .standard enums methods)
    (rs.map Value.record) (free "len" (by simp)) (visible "len" (by simp))
  rw [AccessorSite.run_multiRelation_accessor clean.plain, bind_assoc,
    Exec.bind_of_ok (clean.getter_run wraps _ (by decide) (by decide) value),
    show Exec.oneResult [_] = pure _ from rfl, pure_bind,
    Exec.bind_of_ok (make _), Exec.bind_of_ok length, Step.itemsOf_slice, pure_bind,
    Exec.count_run (by simpa using few), List.length_map,
    Exec.bind_of_ok (AccessorSite.wrapItem_all rs few)]
  rfl

end Catalog.Clean

theorem FieldInfo.accessors?_multi {info : FieldInfo} {target : String}
    (class_ : info.classification? = some (.relation .multi target)) :
    info.accessors? .standard = some (info.site.multiRelation target) := by
  rw [accessors?, class_]
  rfl

-- What the mutator of a relation stored for a list of wrappers, the accessor gives back as a list of
-- wrappers of the very same records, in order and as often as they were in the list.
theorem Run.relation_lists_round_trip {schema : Schema} {g : Generated} (rounds : Nat)
    (ok : (Run.ofSchema schema .standard []).result = .ok g)
    (visible : ∀ x ∈ ["len", "make"], x ∉ (g.declarations.flatMap Decl.constants).map Prod.fst) :
    ∀ m₀, g.program.load rounds {} = .ok () m₀ →
      ∀ e ∈ (Catalog.build schema .standard {}).value.entities, ∀ f ∈ e.fields, ∀ target,
        f.classification? = some (.relation .multi target) → f.site.param ∉ ["len", "make"] →
        ∀ m a r, m₀.Keeps m → m.Wraps a e.name r → (m.record r).expand.Distinct →
        ∀ bs rs, List.Forall₂ (m.Embeds · target ·) bs rs → bs.length < 0x8000000000000000 →
          ∃ m' m'' ws,
            g.program.callMethod rounds (.object a) f.mutator [.slice (bs.map .object)] m =
              .ok [] m' ∧
            m.WritesKey m' r f.key f.IsRelation ∧
            (m'.record r).data.get? f.key = some (.slice (rs.map fun r => .str (m.record r).id)) ∧
            g.program.callMethod rounds (.object a) f.accessor [] m' =
              .ok [.slice (ws.map .object)] m'' ∧
            List.Forall₂ (m''.Wraps · target ·) ws rs ∧ m'.Grows m'' := by
  obtain ⟨clean, program, _⟩ := ofSchema_ok ok
  have same : g.declarations = _ := congrArg Program.declarations program
  rw [program]
  intro m₀ load e he f hf target class_ param m a r keeps wraps distinct bs rs embed few
  have builtins : ∀ x ∈ ["len", "make"], m.globals.get? x = none := by
    have start : ∀ x ∈ ["len", "make"], x.toList.head? ≠ some 'z' := by decide
    intro x hx
    rw [keeps.globals]
    refine (Catalog.load_names load (start x hx)).trans ?_
    exact (Table.get?_insertAll_of_not_mem (same ▸ visible x hx)).trans (Table.get?_empty x)
  let ids := Value.slice (rs.map fun r => .str (m.record r).id)
  let m' := (m.store r f.key ids).storeExpanded r f.key (.slice (rs.map .record))
  have found := FieldInfo.accessors?_multi class_
  have record : m'.record r = _ := Machine.record_storeRelation wraps.exist distinct ids _
  have writes : m.WritesKey m' r f.key f.IsRelation :=
    .storeRelation wraps.exist distinct ids _ ⟨_, target, class_⟩
  have wraps' := wraps.of_objects writes.objects writes.records
  have exist : ∀ r ∈ rs, r < m'.records.size := fun r mem => by
    obtain ⟨b, _, embeds⟩ := exists_of_forall₂ embed.flip mem
    exact writes.records ▸ embeds.exist
  have expands : (m'.record r).expand.get? f.key = some (.slice (rs.map .record)) := by
    rw [record]
    exact Table.get?_insert_self ..
  refine ⟨m', m'.wrapAll target rs, List.range' m'.objects.size rs.length, ?_, writes, ?_, ?_,
    Machine.wraps_wrapAll exist, .wrapAll⟩
  · rw [(clean.callMethod_accessors he hf wraps found).2, Program.maxDepth_eq]
    exact clean.multiRelation_stores rounds 255 wraps builtins param embed few
  · rw [record]
    exact Table.get?_insert_self ..
  · rw [(clean.callMethod_accessors he hf wraps' found).1, Program.maxDepth_eq]
    exact clean.multiRelation_wraps rounds 255 wraps' (writes.globals ▸ builtins)
      (embed.length_eq ▸ few) expands

-- An order and an item.
def Machine.withOrderAndItem (m : Machine) : Machine :=
  { m with
    records := #[⟨"o1", "orders", .empty, .empty⟩, ⟨"i1", "items", .empty, .empty⟩]
    objects := #[⟨"Order", .ofList [(recordField, .record 0)]⟩,
      ⟨"Item", .ofList [(recordField, .record 1)]⟩] }

-- The same item twice.
theorem Run.relation_lists_round_trip_order_items :
    ∃ (g : Generated) (f : FieldInfo) (m₀ m' m'' : Machine) (v w : Nat),
      (Run.ofSchema Schema.shop .standard []).result = .ok g ∧ f.name = "items" ∧
      g.program.load 0 {} = .ok () m₀ ∧ m₀.withOrderAndItem.Wraps 0 "Order" 0 ∧
      m₀.withOrderAndItem.Embeds 1 "Item" 1 ∧
      g.program.callMethod 0 (.object 0) f.mutator [.slice [.object 1, .object 1]]
        m₀.withOrderAndItem = .ok [] m' ∧
      (m'.record 0).data.get? f.key = some (.slice [.str "i1", .str "i1"]) ∧
      g.program.callMethod 0 (.object 0) f.accessor [] m' =
        .ok [.slice [.object v, .object w]] m'' ∧
      m''.Wraps v "Item" 1 ∧ m''.Wraps w "Item" 1 := by
  obtain ⟨g, ok⟩ := Run.shop_ok
  obtain ⟨clean, program, _⟩ := Run.ofSchema_ok ok
  obtain ⟨m₀, load, _⟩ := Catalog.load_run (Catalog.build Schema.shop .standard {}).value [] 0
    (Catalog.sound_enums_build Schema.shop .standard) (Catalog.entries_build Schema.shop_implicit)
  obtain ⟨e, he, order, f, hf, named, class_, param⟩ :
      ∃ e ∈ (Catalog.build Schema.shop .standard {}).value.entities, e.name = "Order" ∧
        ∃ f ∈ e.fields, f.name = "items" ∧ f.classification? = some (.relation .multi "Item") ∧
          f.site.param ∉ ["len", "make"] := by decide +kernel
  have visible : ∀ x ∈ ["len", "make"],
      x ∉ (g.declarations.flatMap Decl.constants).map Prod.fst := by
    rw [show g.declarations = _ from congrArg Program.declarations program]
    decide +kernel
  have wraps : m₀.withOrderAndItem.Wraps 0 e.name 0 := ⟨order.symm, rfl, Nat.zero_lt_two⟩
  have embeds : m₀.withOrderAndItem.Embeds 1 "Item" 1 := ⟨⟨rfl, rfl, Nat.one_lt_two⟩, rfl⟩
  obtain ⟨m', m'', ws, set, _, ids, get, wrapped, _⟩ :=
    Run.relation_lists_round_trip 0 ok visible m₀ (program ▸ load) e he f hf "Item" class_ param
      m₀.withOrderAndItem 0 0 ⟨rfl, Nat.le_refl _, fun _ _ => rfl⟩ wraps .nil [1, 1] [1, 1]
      (.cons embeds (.cons embeds .nil)) (by decide)
  obtain ⟨v, w, rfl, head, last⟩ : ∃ v w, ws = [v, w] ∧ m''.Wraps v "Item" 1 ∧
      m''.Wraps w "Item" 1 := by
    cases wrapped with
    | cons head tail => cases tail with
      | cons last tail => cases tail with
        | nil => exact ⟨_, _, rfl, head, last⟩
  exact ⟨g, f, m₀, m', m'', v, w, ok, named, program ▸ load, order ▸ wraps, embeds, set, ids, get,
    head, last⟩

-- Orders with items, and a constant that is called like a builtin function.
def Schema.hidingLength : Schema where
  entities :=
    [{ name := "Order"
       fields :=
         [{ name := "items", type := "[]*Item" },
          { name := "status", type := "int"
            enumeration := some ⟨"Status", ["new", "paid"], some ["len", "Paid"]⟩ }] },
     { name := "Item", fields := [{ name := "title", type := "string" }] }]

theorem Schema.hidingLength_loads :
    ∃ m, ((Catalog.build hidingLength .standard {}).value.program .standard
        (Catalog.build hidingLength .standard {}).enums []).load 0 {} = .ok () m ∧
      m.globals.get? "make" = none ∧ (m.globals.get? "len").isSome := by
  let p := (Catalog.build hidingLength .standard {}).value.program .standard
    (Catalog.build hidingLength .standard {}).enums []
  have loads : (match p.load 0 {} with
      | .ok _ _ => true
      | .error _ _ => false) = true := by decide +kernel
  obtain ⟨m, load⟩ : ∃ m, p.load 0 {} = .ok () m := by
    revert loads
    cases p.load 0 {} with
    | ok _ m => exact fun _ => ⟨m, rfl⟩
    | error _ _ => exact fun loads => by cases loads
  refine ⟨m, load, ?_, ?_⟩
  · refine (Catalog.load_names load (by decide)).trans (Table.get?_insertAll_of_not_mem ?_)
    decide +kernel
  · rw [Catalog.load_names load (by decide)]
    decide +kernel

-- The constant hides the builtin function, and no list can be set any more.
theorem Run.relation_list_refused_with_constant :
    ∃ (g : Generated) (f : FieldInfo) (m₀ : Machine),
      (Run.ofSchema Schema.hidingLength .standard []).result = .ok g ∧ f.name = "items" ∧
      f.site.param ∉ ["len", "make"] ∧ g.program.load 0 {} = .ok () m₀ ∧
      m₀.withOrderAndItem.Wraps 0 "Order" 0 ∧ m₀.withOrderAndItem.Embeds 1 "Item" 1 ∧
      g.program.callMethod 0 (.object 0) f.mutator [.slice [.object 1]] m₀.withOrderAndItem =
        .error (.undefined "len") m₀.withOrderAndItem := by
  obtain ⟨g, ok⟩ := exists_ok
    (show (ofSchema Schema.hidingLength .standard []).result.isOk by decide +kernel)
  obtain ⟨clean, program, _⟩ := Run.ofSchema_ok ok
  obtain ⟨m₀, load, make, hidden⟩ := Schema.hidingLength_loads
  obtain ⟨e, he, order, f, hf, named, class_, param⟩ :
      ∃ e ∈ (Catalog.build Schema.hidingLength .standard {}).value.entities, e.name = "Order" ∧
        ∃ f ∈ e.fields, f.name = "items" ∧ f.classification? = some (.relation .multi "Item") ∧
          f.site.param ∉ ["len", "make"] := by decide +kernel
  have wraps : m₀.withOrderAndItem.Wraps 0 e.name 0 := ⟨order.symm, rfl, Nat.zero_lt_two⟩
  have embeds : m₀.withOrderAndItem.Embeds 1 "Item" 1 := ⟨⟨rfl, rfl, Nat.one_lt_two⟩, rfl⟩
  have type : ((Catalog.build Schema.hidingLength .standard {}).value.program .standard
    (Catalog.build Schema.hidingLength .standard {}).enums []).underlying? "len" = none := by
    decide +kernel
  refine ⟨g, f, m₀, ok, named, param, program ▸ load, order ▸ wraps, embeds, ?_⟩
  have found := FieldInfo.accessors?_multi class_
  rw [program, (clean.callMethod_accessors he hf wraps found).2, Program.maxDepth_eq,
    clean.multiRelation_refused 0 255 (m := m₀.withOrderAndItem) make hidden type param]

end FieldAccess
