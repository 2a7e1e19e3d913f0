import FieldAccess.Proofs.Loading
import FieldAccess.Proofs.ReadOnlySteps
import FieldAccess.Proofs.WrapperCalls

namespace FieldAccess

namespace Table

variable {κ : Type} [DecidableEq κ] {t : Table κ} {k : κ} {v : Value}

-- No key occurs twice.
def Distinct (t : Table κ) : Prop :=
  (t.entries.map Prod.fst).Nodup

theorem keys_insertInto (k : κ) (v : Value) (entries : List (κ × Value)) :
    (insertInto k v entries).map Prod.fst =
      if k ∈ entries.map Prod.fst then entries.map Prod.fst else entries.map Prod.fst ++ [k] := by
  induction entries with
  | nil => rfl
  | cons e rest ih =>
    obtain ⟨k', w⟩ := e
    by_cases same : k' = k
    · simp [insertInto, same]
    · simp only [insertInto, if_neg same, List.map_cons, ih, List.mem_cons, Ne.symm same, false_or,
        List.cons_append]
      split <;> rfl

theorem Distinct.insert (h : t.Distinct) (k : κ) (v : Value) : (t.insert k v).Distinct := by
  rw [Distinct, Table.insert, keys_insertInto]
  split
  · exact h
  case isFalse new =>
    refine List.nodup_append.2 ⟨h, by simp, fun k' mem k'' last => ?_⟩
    obtain rfl := List.mem_singleton.1 last
    exact fun same => new (same ▸ mem)

theorem insertInto_of_not_mem {entries : List (κ × Value)} (h : k ∉ entries.map Prod.fst) :
    insertInto k v entries = entries ++ [(k, v)] := by
  induction entries with
  | nil => rfl
  | cons e rest ih =>
    simp only [List.map_cons, List.mem_cons, not_or] at h
    rw [insertInto, if_neg (Ne.symm h.1), ih h.2, List.cons_append]

-- A table is made anew from its entries.
theorem ofList_entries (h : t.Distinct) : ofList t.entries = t := by
  have all (more start : List (κ × Value)) (h : ((start ++ more).map Prod.fst).Nodup) :
      (⟨start⟩ : Table κ).insertAll more = ⟨start ++ more⟩ := by
    induction more generalizing start with
    | nil => rw [List.append_nil]; rfl
    | cons e rest ih =>
      have new : e.1 ∉ start.map Prod.fst := fun mem => by
        rw [List.map_append, List.map_cons] at h
        exact (List.nodup_append.1 h).2.2 _ mem _ (List.mem_cons_self ..) rfl
      rw [insertAll_cons, Table.insert, insertInto_of_not_mem new, ih]
      · rw [List.append_assoc]; rfl
      · simpa using h
  exact all t.entries [] h

end Table

namespace Record

variable {r : Record} {key : String} {w : Value}

theorem entries_expansionMap_insert :
    (r.expansionMap.insert (.str key) w).entries =
      (r.expand.insert key w).entries.map fun e => (.str e.1, e.2) := by
  rw [expansionMap, Table.insert, Table.insert]
  dsimp only
  induction r.expand.entries with
  | nil => rfl
  | cons e rest ih =>
    by_cases same : e.1 = key
    · simp [Table.insertInto, same]
    · simp only [List.map_cons, Table.insertInto, MapKey.str.injEq, if_neg same, ih]

-- The way through a map keeps all other relations.
theorem expansionOf_insert (distinct : r.expand.Distinct) :
    expansionOf (r.expansionMap.insert (.str key) w) = r.expand.insert key w := by
  rw [expansionOf, entries_expansionMap_insert, List.filterMap_map]
  refine Eq.trans ?_ (Table.ofList_entries (distinct.insert key w))
  congr 1
  exact List.filterMap_some ..

end Record

-- A change of what a record has under one key. What it expands to changes for a relation only.
structure Machine.WritesKey (m m' : Machine) (r : Nat) (key : String) (relation : Prop) : Prop where
  globals : m'.globals = m.globals
  objects : m'.objects = m.objects
  mapsLe : m.maps.size ≤ m'.maps.size
  map : ∀ a < m.maps.size, m'.map a = m.map a
  records : m'.records.size = m.records.size
  others : ∀ b, b ≠ r → m'.record b = m.record b
  id : (m'.record r).id = (m.record r).id
  collection : (m'.record r).collection = (m.record r).collection
  data : ∃ v, (m'.record r).data = (m.record r).data.insert key v
  expand : (m'.record r).expand = (m.record r).expand ∨
    relation ∧ ∃ w, (m'.record r).expand = (m.record r).expand.insert key w

section

variable {m m' : Machine} {r : Nat} {key : String} {relation : Prop}

theorem Machine.WritesKey.store (exist : r < m.records.size) (v : Value) :
    m.WritesKey (m.store r key v) r key relation where
  globals := rfl
  objects := rfl
  mapsLe := Nat.le_refl _
  map _ _ := rfl
  records := Machine.records_size_store ..
  others b hb := by rw [Machine.record_store exist, if_neg hb]
  id := by rw [Machine.record_store exist, if_pos rfl]
  collection := by rw [Machine.record_store exist, if_pos rfl]
  data := ⟨v, by rw [Machine.record_store exist, if_pos rfl]⟩
  expand := .inl (by rw [Machine.record_store exist, if_pos rfl])

-- Sets what a relation of a record expands to, through a map that stays.
def Machine.storeExpanded (m : Machine) (r : Nat) (key : String) (w : Value) : Machine :=
  let t := (m.record r).expansionMap.insert (.str key) w
  { m.setRecord r { m.record r with expand := Record.expansionOf t } with maps := m.maps.push t }

variable (key) in
theorem Machine.record_storeExpanded (exist : r < m.records.size)
    (distinct : (m.record r).expand.Distinct) (w : Value) (b : Nat) :
    (m.storeExpanded r key w).record b =
      if b = r then { m.record r with expand := (m.record r).expand.insert key w }
      else m.record b := by
  rw [← Record.expansionOf_insert distinct]
  exact Machine.record_setRecord m r b _ exist

theorem Machine.WritesKey.storeExpanded (writes : m.WritesKey m' r key relation)
    (of_relation : relation) (exist : r < m.records.size) (distinct : (m.record r).expand.Distinct)
    (same : (m'.record r).expand = (m.record r).expand) (w : Value) :
    m.WritesKey (m'.storeExpanded r key w) r key relation := by
  have exist' : r < m'.records.size := writes.records ▸ exist
  have record (b : Nat) := m'.record_storeExpanded key exist' (same ▸ distinct) w b
  have self := (record r).trans (if_pos rfl)
  exact {
    globals := writes.globals
    objects := writes.objects
    mapsLe := Nat.le_trans writes.mapsLe (by simp [Machine.storeExpanded])
    map := fun a ha => by
      have ha' := Nat.lt_of_lt_of_le ha writes.mapsLe
      rw [← writes.map a ha]
      simp [Machine.map, Machine.storeExpanded, Array.getElem?_push, Nat.ne_of_lt ha']
    records := writes.records ▸ Array.size_setIfInBounds
    others := fun b hb => by rw [record, if_neg hb, writes.others b hb]
    id := by rw [self, ← writes.id]
    collection := by rw [self, ← writes.collection]
    data := by
      obtain ⟨v, hv⟩ := writes.data
      exact ⟨v, by rw [self, ← hv]⟩
    expand := .inr ⟨of_relation, w, by rw [self, same]⟩ }

end

namespace Machine

-- A scalar, `nil`, or a wrapper around a record.
inductive Single (m : Machine) : Value → Prop where
  | nil : Single m .nil
  | bool (b : Bool) : Single m (.bool b)
  | int (n : Int64) : Single m (.int n)
  | float (x : Float) : Single m (.float x)
  | str (text : String) : Single m (.str text)
  | wrapper {a r : Nat} (holds : (m.object a).fields.get? recordField = some (.record r)) :
    Single m (.object a)

-- What a mutator may be given: a single value or a list of them, of the right kind or not.
inductive Argument (m : Machine) : Value → Prop where
  | single {v : Value} (h : m.Single v) : Argument m v
  | list {items : List Value} (h : ∀ v ∈ items, m.Single v) : Argument m (.slice items)

end Machine

namespace Exec

variable {α β : Type} {m m' : Machine} {x : Exec α} {k : α → Exec β}

-- A step that changes nothing unless it succeeds.
def Recoils (m : Machine) (x : Exec α) : Prop :=
  ∀ fault m', x m = .error fault m' → m' = m

theorem Recoils.of_ok {a : α} (h : x m = .ok a m') : Recoils m x := by
  intro fault m'' failed
  rw [h] at failed
  cases failed

-- A step that only reads may come first.
theorem Reads.recoils_bind (hx : Reads m m x) (hk : ∀ a, x m = .ok a m → Recoils m (k a)) :
    Recoils m (x >>= k) := by
  intro fault m' failed
  rcases hx with ⟨a, run, _⟩ | ⟨fault', run, _⟩
  · rw [bind_of_ok run] at failed
    exact hk a run fault m' failed
  · rw [bind_of_error run] at failed
    exact (EStateM.Result.error.inj failed).2.symm

end Exec

section

variable {c : Catalog} {enums : EnumTable} {methods : List FuncDecl} {e : EntityFields}
  {info : FieldInfo} {m m' : Machine} {a r rounds depth : Nat} {entity : String}

theorem Exec.select_record (holds : (m.object a).fields.get? recordField = some (.record r)) :
    select (.object a) "Record" m = .ok (.record r) m := by
  rw [select, get_bind, show "Record" = recordField from rfl, holds]
  rfl

-- What has an id is a wrapper, so it has a record.
theorem Machine.Argument.select_record {v id : Value} (h : m.Argument v)
    (found : Exec.select v "Id" m = .ok id m) (objects : m'.objects = m.objects) :
    ∃ w, Exec.select v "Record" m' = .ok w m' := by
  rcases h with ⟨_ | _ | _ | _ | _ | ⟨holds⟩⟩ | _
  case wrapper a r =>
    have same : m'.object a = m.object a := by rw [Machine.object, objects, Machine.object]
    exact ⟨.record r, Exec.select_record (same ▸ holds)⟩
  all_goals cases found

-- Once the records are read, nothing can stop the mutator of a relation.
theorem AccessorSite.storeExpanded_run (clean : c.Clean .standard enums methods)
    (wraps : m.Wraps a entity r) {call : CallHandler} {records : Exec Value} {w : Value} :
    let m₁ : Machine := { m with maps := m.maps.push (m.record r).expansionMap }
    records m₁ = .ok w m₁ →
      storeExpanded (c.program .standard enums methods) call info (.object a) records m =
        .ok [] (m.storeExpanded r info.key w) := by
  let t := (m.record r).expansionMap
  let m₁ : Machine := { m with maps := m.maps.push t }
  intro _ read
  have wraps₁ : m₁.Wraps a entity r := wraps.of_objects rfl rfl
  have expand : Exec.callMethod (c.program .standard enums methods) call (.object a) "Expand" [] m =
      .ok [.map m.maps.size] m₁ :=
    (clean.callMethod_record wraps (by decide)).trans rfl
  rw [AccessorSite.storeExpanded, bind_assoc, Exec.bind_of_ok expand,
    show Exec.oneResult [_] = pure _ from rfl, pure_bind, Exec.bind_of_ok read]
  have held : m₁.map m.maps.size = t := Machine.map_allocMap t
  let m₂ : Machine := m₁.setMap m.maps.size (t.insert (.str info.key) w)
  have set : Place.setItem (.map m.maps.size) (.str info.key) w m₁ = .ok (.map m.maps.size) m₂ := by
    change EStateM.Result.ok (Value.map m.maps.size)
      (m₁.setMap m.maps.size ((m₁.map m.maps.size).insert (.str info.key) w)) = _
    rw [held]
  rw [Exec.bind_of_ok set]
  have wraps₂ : m₂.Wraps a entity r := wraps₁.of_objects rfl rfl
  have stored : m₂.map m.maps.size = t.insert (.str info.key) w := by
    rw [Machine.map_setMap _ _ _ _ (by simp [m₁]), if_pos rfl]
  have maps : m₂.maps = m.maps.push (t.insert (.str info.key) w) :=
    Array.ext' (by simp [m₂, m₁, Machine.setMap])
  have setExpand : Exec.callMethod (c.program .standard enums methods) call (.object a) "SetExpand"
      [.map m.maps.size] m₂ = .ok [] (m.storeExpanded r info.key w) := by
    refine (clean.callMethod_record wraps₂ (by decide)).trans ?_
    change EStateM.Result.ok [] (m₂.setRecord r { m₂.record r with
      expand := Record.expansionOf (m₂.map m.maps.size) }) = _
    rw [stored, Machine.setRecord, maps]
    rfl
  rw [Exec.bind_of_ok setExpand]
  rfl

-- What the mutator of a relation has changed when it is through.
theorem AccessorSite.storeExpanded_ok (clean : c.Clean .standard enums methods)
    (wraps : m.Wraps a entity r) {call : CallHandler} {records : Exec Value}
    (quiet : ∀ m, Exec.Reads m m records) {vs : List Value}
    (run : storeExpanded (c.program .standard enums methods) call info (.object a) records m =
      .ok vs m') : vs = [] ∧ ∃ w, m' = m.storeExpanded r info.key w := by
  rcases quiet { m with maps := m.maps.push (m.record r).expansionMap } with
    ⟨w, read, _⟩ | ⟨fault, failed, _⟩
  · rw [storeExpanded_run clean wraps read] at run
    obtain ⟨rfl, rfl⟩ := EStateM.Result.ok.inj run
    exact ⟨rfl, w, rfl⟩
  · have expand : Exec.callMethod (c.program .standard enums methods) call (.object a) "Expand" []
        m = .ok [.map m.maps.size] _ :=
      (clean.callMethod_record wraps (by decide)).trans rfl
    rw [AccessorSite.storeExpanded, bind_assoc, Exec.bind_of_ok expand,
      show Exec.oneResult [_] = pure _ from rfl, pure_bind, Exec.bind_of_error failed] at run
    cases run

theorem AccessorSite.storeRelation_ok (clean : c.Clean .standard enums methods)
    (wraps : m.Wraps a entity r) (distinct : (m.record r).expand.Distinct) {call : CallHandler}
    {ids records : Exec Value} (ids_quiet : ∀ m, Exec.Reads m m ids)
    (records_quiet : ∀ m, Exec.Reads m m records) {vs : List Value} {relation : Prop}
    (of_relation : relation)
    (run : storeRelation (c.program .standard enums methods) call info (.object a) ids records m =
      .ok vs m') : vs = [] ∧ m.WritesKey m' r info.key relation := by
  rw [storeRelation, Exec.bind_of_ok (Exec.select_record wraps.holds)] at run
  obtain ⟨v, _, run⟩ := (ids_quiet m).ok_bind run
  have set : Exec.callMethod (c.program .standard enums methods) call (.record r) "Set"
      [.str info.key, v] m = .ok [] (m.store r info.key v) := rfl
  rw [Exec.bind_of_ok set] at run
  have wraps₁ : (m.store r info.key v).Wraps a entity r :=
    wraps.of_objects rfl (Machine.records_size_store ..)
  obtain ⟨answer, w, e⟩ := storeExpanded_ok clean wraps₁ records_quiet run
  refine ⟨answer, e ▸ Machine.WritesKey.storeExpanded (.store wraps.exist v) of_relation wraps.exist
    distinct ?_ w⟩
  rw [Machine.record_store wraps.exist, if_pos rfl]

-- The record is written once its new content is there.
theorem AccessorSite.storeRelation_recoils (clean : c.Clean .standard enums methods)
    (wraps : m.Wraps a entity r) {call : CallHandler} {ids records : Exec Value}
    (quiet : Exec.Reads m m ids)
    (records_ok : ∀ {id}, ids m = .ok id m → ∀ m₁ : Machine, m₁.objects = m.objects →
      ∃ w, records m₁ = .ok w m₁) :
    Exec.Recoils m
      (storeRelation (c.program .standard enums methods) call info (.object a) ids records) := by
  have reads : Exec.Reads m m (Exec.select (.object a) "Record") := Exec.select_quiet m _ _
  refine reads.recoils_bind fun record selected => quiet.recoils_bind fun id found => ?_
  obtain rfl : record = .record r :=
    (EStateM.Result.ok.inj (selected.symm.trans (Exec.select_record wraps.holds))).1
  have set : Exec.callMethod (c.program .standard enums methods) call (.record r) "Set"
      [.str info.key, id] m = .ok [] (m.store r info.key id) := rfl
  have wraps₁ : (m.store r info.key id).Wraps a entity r :=
    wraps.of_objects rfl (Machine.records_size_store ..)
  obtain ⟨w, read⟩ := records_ok found
    { m.store r info.key id with
      maps := m.maps.push ((m.store r info.key id).record r).expansionMap } rfl
  exact .of_ok ((Exec.bind_of_ok set _).trans (storeExpanded_run clean wraps₁ read))

-- A call that succeeds was given as many values as the function takes.
theorem Program.length_of_invoke_ok {p : Program} {f : FuncDecl} {receiver : Option Value}
    {args vs : List Value} (h : p.invoke rounds depth f receiver args m = .ok vs m') :
    args.length = f.params.length := by
  by_contra other
  rw [Program.invoke.eq_def] at h
  dsimp only at h
  rw [if_pos other] at h
  exact Exec.ok_failType.1 h

def FieldInfo.IsRelation (info : FieldInfo) : Prop :=
  ∃ multiplicity target, info.classification? = some (.relation multiplicity target)

namespace Catalog.Clean

variable (clean : c.Clean .standard enums methods) (wraps : m.Wraps a entity r) {v : Value}
  {vs : List Value} {relation : Prop}

include clean wraps

theorem set_ok {call : CallHandler}
    (run : (Exec.callMethod (c.program .standard enums methods) call (.object a) "Set"
      [.str info.key, v] >>= fun _ => pure []) m = .ok vs m') :
    vs = [] ∧ m.WritesKey m' r info.key relation := by
  have set : Exec.callMethod (c.program .standard enums methods) call (.object a) "Set"
      [.str info.key, v] m = .ok [] (m.store r info.key v) :=
    (clean.callMethod_record wraps (by decide)).trans rfl
  rw [Exec.bind_of_ok set] at run
  obtain ⟨rfl, rfl⟩ := Exec.ok_pure.1 run
  exact ⟨rfl, .store wraps.exist v⟩

theorem set_recoils {call : CallHandler} :
    Exec.Recoils m (Exec.callMethod (c.program .standard enums methods) call (.object a) "Set"
      [.str info.key, v] >>= fun _ => pure ([] : List Value)) := by
  have set : Exec.callMethod (c.program .standard enums methods) call (.object a) "Set"
      [.str info.key, v] m = .ok [] (m.store r info.key v) :=
    (clean.callMethod_record wraps (by decide)).trans rfl
  exact .of_ok ((Exec.bind_of_ok set _).trans rfl)

theorem primitive_writes {getter : String} {type : TypeExpr}
    (run : (c.program .standard enums methods).invoke rounds (depth + 1)
      (info.site.primitive getter type).mutator (some (.object a)) [v] m = .ok vs m') :
    vs = [] ∧ m.WritesKey m' r info.key relation := by
  rw [AccessorSite.run_primitive_mutator] at run
  exact clean.set_ok wraps run

theorem primitive_recoils {getter : String} {type : TypeExpr} :
    Exec.Recoils m ((c.program .standard enums methods).invoke rounds (depth + 1)
      (info.site.primitive getter type).mutator (some (.object a)) [v]) := by
  rw [AccessorSite.run_primitive_mutator]
  exact clean.set_recoils wraps

theorem singleEnum_writes {enum : String}
    (run : (c.program .standard enums methods).invoke rounds (depth + 1)
      (info.site.singleEnum enum).mutator (some (.object a)) [v] m = .ok vs m') :
    vs = [] ∧ m.WritesKey m' r info.key relation := by
  rw [AccessorSite.run_singleEnum_mutator clean.plain] at run
  obtain ⟨label, _, run⟩ := (Exec.lookUpIn_quiet m v _).ok_bind run
  exact clean.set_ok wraps run

theorem singleEnum_recoils {enum : String} :
    Exec.Recoils m ((c.program .standard enums methods).invoke rounds (depth + 1)
      (info.site.singleEnum enum).mutator (some (.object a)) [v]) := by
  rw [AccessorSite.run_singleEnum_mutator clean.plain]
  exact (Exec.lookUpIn_quiet m v _).recoils_bind fun _ _ => clean.set_recoils wraps

theorem multiEnum_writes {enum : String}
    (run : (c.program .standard enums methods).invoke rounds (depth + 1)
      (info.site.multiEnum enum).mutator (some (.object a)) [v] m = .ok vs m') :
    vs = [] ∧ m.WritesKey m' r info.key relation := by
  rw [AccessorSite.run_multiEnum_mutator clean.plain] at run
  obtain ⟨_, _, run⟩ := (Exec.guard_quiet m _ _).ok_bind run
  obtain ⟨pairs, _, run⟩ := (Exec.itemsOf_quiet m v).ok_bind run
  obtain ⟨labels, _, run⟩ := (Exec.lookUpAll_quiet m _ pairs).ok_bind run
  exact clean.set_ok wraps run

theorem multiEnum_recoils {enum : String} :
    Exec.Recoils m ((c.program .standard enums methods).invoke rounds (depth + 1)
      (info.site.multiEnum enum).mutator (some (.object a)) [v]) := by
  rw [AccessorSite.run_multiEnum_mutator clean.plain]
  refine (Exec.guard_quiet m _ _).recoils_bind fun _ _ => ?_
  refine (Exec.itemsOf_quiet m v).recoils_bind fun pairs _ => ?_
  exact (Exec.lookUpAll_quiet m _ pairs).recoils_bind fun _ _ => clean.set_recoils wraps

theorem singleRelation_recoils (argument : m.Argument v) {target : String} :
    Exec.Recoils m ((c.program .standard enums methods).invoke rounds (depth + 1)
      (info.site.singleRelation target).mutator (some (.object a)) [v]) := by
  rw [AccessorSite.run_singleRelation_mutator]
  exact AccessorSite.storeRelation_recoils clean wraps (Exec.select_quiet m v "Id")
    fun found _ objects => argument.select_record found objects

theorem multiRelation_recoils {target : String} :
    Exec.Recoils m ((c.program .standard enums methods).invoke rounds (depth + 1)
      (info.site.multiRelation target).mutator (some (.object a)) [v]) := by
  rw [AccessorSite.run_multiRelation_mutator clean.plain]
  refine (Exec.guard_quiet m _ _).recoils_bind fun _ _ => ?_
  refine (Exec.lengthIn_quiet m v).recoils_bind fun count _ => ?_
  refine (Exec.guard_quiet m _ _).recoils_bind fun _ _ => ?_
  refine (Exec.lengthIn_quiet m v).recoils_bind fun count' _ => ?_
  refine (Exec.itemsOf_quiet m v).recoils_bind fun pairs _ => ?_
  refine (Exec.Reads.foldlM (Exec.splitWrapper_reads (.refl m)) pairs _).recoils_bind fun _ _ => ?_
  exact AccessorSite.storeRelation_recoils clean wraps (.pure _) fun _ _ _ => ⟨_, rfl⟩

variable (distinct : (m.record r).expand.Distinct) (of_relation : relation)

include distinct of_relation

theorem singleRelation_writes {target : String}
    (run : (c.program .standard enums methods).invoke rounds (depth + 1)
      (info.site.singleRelation target).mutator (some (.object a)) [v] m = .ok vs m') :
    vs = [] ∧ m.WritesKey m' r info.key relation := by
  rw [AccessorSite.run_singleRelation_mutator] at run
  exact AccessorSite.storeRelation_ok clean wraps distinct (Exec.select_quiet · v "Id")
    (Exec.select_quiet · v "Record") of_relation run

theorem multiRelation_writes {target : String}
    (run : (c.program .standard enums methods).invoke rounds (depth + 1)
      (info.site.multiRelation target).mutator (some (.object a)) [v] m = .ok vs m') :
    vs = [] ∧ m.WritesKey m' r info.key relation := by
  rw [AccessorSite.run_multiRelation_mutator clean.plain] at run
  obtain ⟨_, _, run⟩ := (Exec.guard_quiet m _ _).ok_bind run
  obtain ⟨count, _, run⟩ := (Exec.lengthIn_quiet m v).ok_bind run
  obtain ⟨_, _, run⟩ := (Exec.guard_quiet m _ _).ok_bind run
  obtain ⟨count', _, run⟩ := (Exec.lengthIn_quiet m v).ok_bind run
  obtain ⟨pairs, _, run⟩ := (Exec.itemsOf_quiet m v).ok_bind run
  obtain ⟨lists, _, run⟩ :=
    (Exec.Reads.foldlM (Exec.splitWrapper_reads (.refl m)) pairs _).ok_bind run
  exact AccessorSite.storeRelation_ok clean wraps distinct (fun _ => .pure _) (fun _ => .pure _)
    of_relation run

end Catalog.Clean

-- The accessor and the mutator of a field, by its classification.
theorem FieldInfo.accessors?_cases {pair : AccessorPair}
    (h : info.accessors? .standard = some pair) :
    (∃ representation getter type, info.classification? = some (.primitive representation getter) ∧
        info.declaredType? = some type ∧ pair = info.site.primitive getter type) ∨
      (∃ target, info.classification? = some (.relation .single target) ∧
        pair = info.site.singleRelation target) ∨
      (∃ target, info.classification? = some (.relation .multi target) ∧
        pair = info.site.multiRelation target) ∨
      (∃ enum, info.classification? = some (.enumeration .single enum) ∧
        pair = info.site.singleEnum enum) ∨
      ∃ enum, info.classification? = some (.enumeration .multi enum) ∧
        pair = info.site.multiEnum enum := by
  obtain ⟨class_, hc, h⟩ := Option.bind_eq_some_iff.1 h
  rcases class_ with ⟨representation, getter⟩ | ⟨_ | _, target⟩ | ⟨_ | _, enum⟩
  · obtain ⟨type, declared, h⟩ := Option.map_eq_some_iff.1 h
    exact .inl ⟨representation, getter, type, hc, declared, h.symm⟩
  · exact .inr (.inl ⟨target, hc, (Option.some.inj h).symm⟩)
  · exact .inr (.inr (.inl ⟨target, hc, (Option.some.inj h).symm⟩))
  · exact .inr (.inr (.inr (.inl ⟨enum, hc, (Option.some.inj h).symm⟩)))
  · exact .inr (.inr (.inr (.inr ⟨enum, hc, (Option.some.inj h).symm⟩)))

-- A mutator that succeeds has changed the record under the key of its field, and nothing else.
theorem Catalog.Clean.mutator_writes (clean : c.Clean .standard enums methods) (he : e ∈ c.entities)
    (hi : info ∈ e.fields) (proxied : info.isProxied) (wraps : m.Wraps a e.name r)
    (distinct : (m.record r).expand.Distinct) {args vs : List Value}
    (run : (c.program .standard enums methods).callMethod rounds (.object a) info.mutator args m =
      .ok vs m') : vs = [] ∧ m.WritesKey m' r info.key info.IsRelation := by
  obtain ⟨class_, hc⟩ := FieldInfo.isProxied_iff.1 proxied
  obtain ⟨pair, found, _⟩ :=
    FieldInfo.accessors?_of_backed hc ((clean.built.fields e he).backed info hi class_ hc)
  rw [(clean.callMethod_accessors he hi wraps found).2] at run
  obtain ⟨_, _, params⟩ := FieldInfo.params_of_accessors? found
  have count := (Program.length_of_invoke_ok run).trans (congrArg List.length params)
  obtain ⟨v, rfl⟩ := List.length_eq_one_iff.1 count
  rcases FieldInfo.accessors?_cases found with ⟨_, getter, type, _, _, rfl⟩ | ⟨target, related, rfl⟩ |
    ⟨target, related, rfl⟩ | ⟨enum, _, rfl⟩ | ⟨enum, _, rfl⟩
  · exact clean.primitive_writes wraps run
  · exact clean.singleRelation_writes wraps distinct ⟨_, target, related⟩ run
  · exact clean.multiRelation_writes wraps distinct ⟨_, target, related⟩ run
  · exact clean.singleEnum_writes wraps run
  · exact clean.multiEnum_writes wraps run

theorem Catalog.Clean.mutator_recoils (clean : c.Clean .standard enums methods) (he : e ∈ c.entities)
    (hi : info ∈ e.fields) (proxied : info.isProxied) (wraps : m.Wraps a e.name r) {v : Value}
    (argument : m.Argument v) :
    Exec.Recoils m ((c.program .standard enums methods).callMethod rounds (.object a) info.mutator
      [v]) := by
  obtain ⟨class_, hc⟩ := FieldInfo.isProxied_iff.1 proxied
  obtain ⟨pair, found, _⟩ :=
    FieldInfo.accessors?_of_backed hc ((clean.built.fields e he).backed info hi class_ hc)
  have recoils : Exec.Recoils m ((c.program .standard enums methods).invoke rounds
      Program.maxDepth pair.mutator (some (.object a)) [v]) := by
    rcases FieldInfo.accessors?_cases found with ⟨_, getter, type, _, _, rfl⟩ | ⟨target, _, rfl⟩ |
      ⟨target, _, rfl⟩ | ⟨enum, _, rfl⟩ | ⟨enum, _, rfl⟩
    · exact clean.primitive_recoils wraps
    · exact clean.singleRelation_recoils wraps argument
    · exact clean.multiRelation_recoils wraps
    · exact clean.singleEnum_recoils wraps
    · exact clean.multiEnum_recoils wraps
  intro fault m' failed
  rw [(clean.callMethod_accessors he hi wraps found).2] at failed
  exact recoils fault m' failed

end

-- A mutator that fails has changed nothing: neither the record of its wrapper nor anything else.
theorem Run.failed_mutators_change_nothing {schema : Schema} {g : Generated} {rounds : Nat}
    (ok : (Run.ofSchema schema .standard []).result = .ok g) :
    ∀ e ∈ (Catalog.build schema .standard {}).value.entities, ∀ f ∈ e.fields, f.isProxied →
      ∀ m a r, m.Wraps a e.name r → ∀ v, m.Argument v → ∀ fault m',
        g.program.callMethod rounds (.object a) f.mutator [v] m = .error fault m' → m' = m := by
  obtain ⟨clean, program, _⟩ := ofSchema_ok ok
  rw [program]
  intro e he f hf proxied m a r wraps v argument
  exact clean.mutator_recoils he hf proxied wraps argument

-- A list whose second wrapper is missing: the mutator stops at it, with the first one's id in hand.
theorem Run.failed_mutators_change_nothing_order_items :
    ∃ (g : Generated) (m : Machine) (f : FieldInfo) (v : Value),
      (Run.ofSchema Schema.shop .standard []).result = .ok g ∧ f.name = "items" ∧
      m.Wraps 0 "Order" 0 ∧ v = .slice [.object 1, .nil] ∧ m.Argument v ∧
      ∃ m', g.program.callMethod 0 (.object 0) f.mutator [v] m = .error .nilDereference m' ∧
        m' = m := by
  obtain ⟨g, ok⟩ := Run.shop_ok
  obtain ⟨clean, program, _⟩ := Run.ofSchema_ok ok
  obtain ⟨e, he, order, f, hf, named, class_, param⟩ :
      ∃ e ∈ (Catalog.build Schema.shop .standard {}).value.entities, e.name = "Order" ∧
        ∃ f ∈ e.fields, f.name = "items" ∧ f.classification? = some (.relation .multi "Item") ∧
          f.site.param = "items" := by decide +kernel
  have proxied : f.isProxied := FieldInfo.isProxied_iff.2 ⟨_, class_⟩
  let m : Machine :=
    { records := #[⟨"r1", "orders", .empty, .empty⟩, ⟨"r2", "items", .empty, .empty⟩]
      objects := #[⟨"Order", .ofList [(recordField, .record 0)]⟩,
        ⟨"Item", .ofList [(recordField, .record 1)]⟩] }
  have wraps : m.Wraps 0 e.name 0 := ⟨order.symm, rfl, Nat.zero_lt_two⟩
  have argument : m.Argument (.slice [.object 1, .nil]) := by
    refine .list fun v hv => ?_
    rcases List.mem_pair.1 hv with rfl | rfl
    · exact .wrapper (r := 1) rfl
    · exact .nil
  have made : f.accessors? .standard = some (f.site.multiRelation "Item") := by
    simp [FieldInfo.accessors?, class_, FieldInfo.site]
  have run : g.program.callMethod 0 (.object 0) f.mutator [.slice [.object 1, .nil]] m =
      .error .nilDereference m := by
    rw [program, (clean.callMethod_accessors he hf wraps made).2, Program.maxDepth_eq,
      AccessorSite.run_multiRelation_mutator clean.plain]
    simp only [AccessorSite.mutatorFrame, param]
    rfl
  exact ⟨g, m, f, _, ok, named, order ▸ wraps, rfl, argument, m, run,
    Run.failed_mutators_change_nothing ok e he f hf proxied m 0 0 wraps _ argument _ _ run⟩

end FieldAccess
