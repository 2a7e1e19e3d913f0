import FieldAccess.Proofs.Loading
import FieldAccess.Proofs.WrapperCalls

namespace FieldAccess

-- How code stops that meets an option it does not know.
def ExecFault.unknownOption : ExecFault :=
  .panicked (.str "Unknown select value")

section

variable {p : Program} {f : Frame} {m m' : Machine} {x table : String} {t : Table MapKey}
  {k : MapKey} {v : Value}

namespace Exec

theorem guard_run (free : f.get? x = none) (free' : m.globals.get? x = none) (fault : ExecFault) :
    guard p f x fault m = .ok () m := by
  have unbound : binding? f x m = .ok none m := by
    change EStateM.Result.ok ((f.get? x).or (m.globals.get? x)) m = _
    rw [free, free']
    rfl
  rw [guard, bind_of_ok unbound]
  rfl

-- What comes after a step that leaves the machine as it is, or fails.
theorem bind_of_elim {α β : Type} {step : Exec α} {result : Option α} {fault : ExecFault}
    (h : step m = result.elim (.error fault m) (.ok · m)) (next : α → Exec β) :
    (step >>= next) m = result.elim (.error fault m) fun a => next a m := by
  cases result with
  | none => exact bind_of_error h _
  | some a => exact bind_of_ok h _

-- What lookups need of the variables: the table is that of the package, and builtin functions are
-- not hidden.
structure SeesTable (f : Frame) (m : Machine) (table : String) (t : Table MapKey) : Prop where
  held : m.HoldsMap table t
  free : f.get? table = none
  builtins : ∀ x ∈ ["len", "make", "append", "panic"], f.get? x = none ∧ m.globals.get? x = none

theorem SeesTable.guard_run (sees : SeesTable f m table t)
    (hx : x ∈ ["len", "make", "append", "panic"]) (fault : ExecFault) :
    guard p f x fault m = .ok () m :=
  Exec.guard_run (sees.builtins x hx).1 (sees.builtins x hx).2 fault

theorem SeesTable.lookUpIn_run (sees : SeesTable f m table t) (k : MapKey) :
    lookUpIn p f table k.toValue m = (t.get? k).elim (.error .unknownOption m) (.ok · m) := by
  obtain ⟨a, _, global, entries⟩ := sees.held
  have bound : binding? f table m = .ok (some (.map a)) m := by
    change EStateM.Result.ok ((f.get? table).or (m.globals.get? table)) m = _
    rw [sees.free, global]
    rfl
  rw [lookUpIn, bind_of_ok bound, show orFail _ (some (Value.map a)) = pure _ from rfl, pure_bind]
  dsimp only
  rw [mapKey, Value.key?_toValue, show orFail _ (some k) = pure k from rfl, pure_bind,
    get_bind, entries]
  cases t.get? k with
  | some v => rfl
  | none =>
    change giveUp p f m = _
    rw [giveUp, bind_of_ok (sees.guard_run (by simp) _)]
    rfl

theorem SeesTable.lookUpEach_run (sees : SeesTable f m table t) (k : MapKey) :
    lookUpEach p f table k.toValue m = (t.get? k).elim (.error .unknownOption m) (.ok · m) := by
  rw [lookUpEach, bind_of_elim (sees.lookUpIn_run k)]
  cases t.get? k with
  | none => rfl
  | some v => exact bind_of_ok (sees.guard_run (by simp) _) _

theorem mapM_run {α β : Type} {step : α → Exec β} {result : α → Option β} {fault : ExecFault}
    (h : ∀ a, step a m = (result a).elim (.error fault m) (.ok · m)) (as : List α) :
    as.mapM step m = (as.mapM result).elim (.error fault m) (.ok · m) := by
  induction as with
  | nil => rfl
  | cons a rest ih =>
    rw [List.mapM_cons, List.mapM_cons, bind_of_elim (h a)]
    cases result a with
    | none => rfl
    | some b =>
      refine (bind_of_elim ih _).trans ?_
      cases rest.mapM result <;> rfl

-- A list of keys is looked up item by item.
theorem SeesTable.mapM_lookUpEach (sees : SeesTable f m table t) (ks : List MapKey) :
    (Step.itemsOf (.slice (ks.map MapKey.toValue)) >>= fun pairs =>
      pairs.mapM fun pair => lookUpEach p f table pair.2) m =
      (ks.mapM t.get?).elim (.error .unknownOption m) (.ok · m) := by
  rw [Step.itemsOf_mapM, List.mapM_map]
  exact mapM_run (fun k => sees.lookUpEach_run k) ks

end Exec

end

namespace AccessorSite

variable {info : FieldInfo} {receiver v : Value} {x : String}

theorem get?_accessorFrame_other (other : x ≠ "p") :
    (⟨[accessorFrame receiver]⟩ : Frame).get? x = none := by
  simp [accessorFrame, Frame.get?_cons, Table.get?_insert, other]

theorem get?_mutatorFrame_other (other : x ≠ "p") (param : x ≠ info.site.param) :
    (⟨[mutatorFrame info receiver v]⟩ : Frame).get? x = none := by
  simp [mutatorFrame, accessorFrame, Frame.get?_cons, Table.get?_insert, other, param]

end AccessorSite

section

variable {c : Catalog} {enums : EnumTable} {e : EntityFields} {info : FieldInfo} {entry : EnumEntry}
  {m m' : Machine} {a r rounds : Nat} {table : String} {t : Table MapKey}

theorem Catalog.Loaded.of_keeps (loaded : c.Loaded enums m) (keeps : m.Keeps m') :
    c.Loaded enums m' where
  tables e he info hi entry found _ _ h := (loaded.tables e he info hi entry found h).of_keeps keeps
  builtins x hx := keeps.globals ▸ loaded.builtins x hx

-- A field of a wrapper whose enumeration is loaded, with a parameter that hides nothing.
structure Catalog.EnumSite (c : Catalog) (enums : EnumTable) (m : Machine) (e : EntityFields)
    (info : FieldInfo) (entry : EnumEntry) (a r : Nat) : Prop where
  clean : c.Clean .standard enums []
  entity : e ∈ c.entities
  field : info ∈ e.fields
  found : info.enum?.bind enums.get? = some entry
  param : info.site.param ∉ ["len", "make", "append", "panic"]
  param' : info.site.param ≠ Settings.standard.ordinalTable entry.name
  loaded : c.Loaded enums m
  wraps : m.Wraps a e.name r

namespace Catalog.EnumSite

variable (site : c.EnumSite enums m e info entry a r)

include site

theorem store (v : Value) : c.EnumSite enums (m.store r info.key v) e info entry a r :=
  { site with
    loaded := site.loaded.of_keeps ⟨rfl, Nat.le_refl _, fun _ _ => rfl⟩
    wraps := site.wraps.of_objects rfl (by simp) }

theorem accessor_sees (h : entry.Tabulates table t) :
    Exec.SeesTable ⟨[AccessorSite.accessorFrame (.object a)]⟩ m table t where
  held := site.loaded.tables e site.entity info site.field entry site.found h
  free := AccessorSite.get?_accessorFrame_other fun same => by
    have start := h.start
    rw [same] at start
    exact absurd start (by decide)
  builtins x hx := by
    have other : ∀ x ∈ ["len", "make", "append", "panic"], x ≠ "p" := by decide
    exact ⟨AccessorSite.get?_accessorFrame_other (other x hx), site.loaded.builtins x hx⟩

theorem mutator_sees (v : Value) :
    Exec.SeesTable ⟨[AccessorSite.mutatorFrame info (.object a) v]⟩ m
      (Settings.standard.ordinalTable entry.name) entry.texts where
  held := site.loaded.tables e site.entity info site.field entry site.found .texts
  free := by
    refine AccessorSite.get?_mutatorFrame_other (fun same => ?_) site.param'.symm
    have start := (EnumEntry.Tabulates.texts : entry.Tabulates _ _).start
    rw [same] at start
    exact absurd start (by decide)
  builtins x hx := by
    have other : ∀ x ∈ ["len", "make", "append", "panic"], x ≠ "p" := by decide
    exact ⟨AccessorSite.get?_mutatorFrame_other (other x hx) fun same => site.param (same ▸ hx),
      site.loaded.builtins x hx⟩

theorem single_accessor (class_ : info.classification? = some (.enumeration .single entry.name))
    {s : String} (stored : (m.record r).data.get? info.key = some (.str s)) :
    (c.program .standard enums []).callMethod rounds (.object a) info.accessor [] m =
      (entry.ordinals.get? (.str s)).elim (.error .unknownOption m) fun i => .ok [i] m := by
  have found : info.accessors? .standard = some (info.site.singleEnum entry.name) := by
    rw [FieldInfo.accessors?, class_]
    rfl
  have read : Exec.recordMethod r "GetString" [.str info.key] m = .ok [.str s] m := by
    change EStateM.Result.ok [Value.str (Record.text m (((m.record r).data.get? info.key).getD .nil))]
      m = _
    rw [stored]
    rfl
  rw [(site.clean.callMethod_accessors site.entity site.field site.wraps found).1,
    Program.maxDepth_eq, AccessorSite.run_singleEnum_accessor site.clean.plain, bind_assoc,
    Exec.bind_of_ok ((site.clean.callMethod_record site.wraps (by decide)).trans read)]
  exact Exec.bind_of_elim ((site.accessor_sees .ordinals).lookUpIn_run (.str s)) _

theorem single_mutator (class_ : info.classification? = some (.enumeration .single entry.name))
    (n : Int64) :
    (c.program .standard enums []).callMethod rounds (.object a) info.mutator [.int n] m =
      (entry.texts.get? (.int n)).elim (.error .unknownOption m) fun label =>
        .ok [] (m.store r info.key label) := by
  have found : info.accessors? .standard = some (info.site.singleEnum entry.name) := by
    rw [FieldInfo.accessors?, class_]
    rfl
  rw [(site.clean.callMethod_accessors site.entity site.field site.wraps found).2,
    Program.maxDepth_eq, AccessorSite.run_singleEnum_mutator site.clean.plain]
  refine (Exec.bind_of_elim ((site.mutator_sees (.int n)).lookUpIn_run (.int n)) _).trans ?_
  congr 1
  funext label
  exact Exec.bind_of_ok (site.clean.callMethod_record site.wraps (by decide)) _

theorem multi_accessor (class_ : info.classification? = some (.enumeration .multi entry.name))
    {ss : List String} (stored : (m.record r).data.get? info.key = some (.slice (ss.map .str))) :
    (c.program .standard enums []).callMethod rounds (.object a) info.accessor [] m =
      ((ss.map MapKey.str).mapM entry.ordinals.get?).elim (.error .unknownOption m) fun is =>
        .ok [.slice is] m := by
  have found : info.accessors? .standard = some (info.site.multiEnum entry.name) := by
    rw [FieldInfo.accessors?, class_]
    rfl
  have read : Exec.recordMethod r "GetStringSlice" [.str info.key] m =
      .ok [.slice ((ss.map MapKey.str).map MapKey.toValue)] m := by
    change EStateM.Result.ok [Value.slice (Record.texts (((m.record r).data.get? info.key).getD .nil))]
      m = _
    rw [stored, List.map_map]
    rfl
  have sees := site.accessor_sees .ordinals
  rw [(site.clean.callMethod_accessors site.entity site.field site.wraps found).1,
    Program.maxDepth_eq, AccessorSite.run_multiEnum_accessor site.clean.plain, bind_assoc,
    Exec.bind_of_ok ((site.clean.callMethod_record site.wraps (by decide)).trans read),
    show Exec.oneResult [_] = pure _ from rfl, pure_bind, Exec.bind_of_ok (sees.guard_run (by simp) _),
    ← bind_assoc]
  exact Exec.bind_of_elim (sees.mapM_lookUpEach _) _

theorem multi_mutator (class_ : info.classification? = some (.enumeration .multi entry.name))
    (ns : List Int64) :
    (c.program .standard enums []).callMethod rounds (.object a) info.mutator
        [.slice (ns.map .int)] m =
      ((ns.map MapKey.int).mapM entry.texts.get?).elim (.error .unknownOption m) fun labels =>
        .ok [] (m.store r info.key (.slice labels)) := by
  have found : info.accessors? .standard = some (info.site.multiEnum entry.name) := by
    rw [FieldInfo.accessors?, class_]
    rfl
  have values : ns.map Value.int = (ns.map MapKey.int).map MapKey.toValue := by
    rw [List.map_map]
    rfl
  rw [values]
  have sees := site.mutator_sees (.slice ((ns.map MapKey.int).map MapKey.toValue))
  rw [(site.clean.callMethod_accessors site.entity site.field site.wraps found).2,
    Program.maxDepth_eq, AccessorSite.run_multiEnum_mutator site.clean.plain,
    Exec.bind_of_ok (sees.guard_run (by simp) _), ← bind_assoc]
  refine (Exec.bind_of_elim (sees.mapM_lookUpEach _) _).trans ?_
  congr 1
  funext labels
  exact Exec.bind_of_ok (site.clean.callMethod_record site.wraps (by decide)) _

end Catalog.EnumSite

end

-- An ordinal of one of the labels.
def IsOrdinal (labels : List String) (n : Int64) : Prop :=
  0 ≤ n.toInt ∧ n.toInt < labels.length

namespace EnumEntry

variable {entry : EnumEntry} {n : Int64} {s : String}

-- The label of an ordinal.
def label (entry : EnumEntry) (n : Int64) : String :=
  entry.labels.getD n.toInt.toNat ""

theorem ofNat_toInt (h : 0 ≤ n.toInt) : Int64.ofNat n.toInt.toNat = n := by
  rw [← Int64.ofInt_eq_ofNat, Int.toNat_of_nonneg h, Int64.ofInt_toInt]

theorem getElem?_of_isOrdinal (h : IsOrdinal entry.labels n) :
    entry.labels[n.toInt.toNat]? = some (entry.label n) := by
  have bound : n.toInt.toNat < entry.labels.length := by
    have := h.1
    have := h.2
    omega
  rw [label, List.getD_eq_getElem?_getD, List.getElem?_eq_getElem bound, Option.getD_some]

-- The two tables are inverse to one another.
theorem texts_of_isOrdinal (few : entry.labels.length ≤ 0x8000000000000000)
    (h : IsOrdinal entry.labels n) :
    entry.texts.get? (.int n) = some (.str (entry.label n)) := by
  have found := get?_texts few (getElem?_of_isOrdinal h)
  rwa [ofNat_toInt h.1] at found

theorem ordinals_label (distinct : entry.labels.Nodup) (h : IsOrdinal entry.labels n) :
    entry.ordinals.get? (.str (entry.label n)) = some (.int n) := by
  have found := get?_ordinals distinct (getElem?_of_isOrdinal h)
  rwa [ofNat_toInt h.1] at found

theorem ordinals_of_mem (distinct : entry.labels.Nodup) (h : s ∈ entry.labels) :
    entry.ordinals.get? (.str s) = some (.int (Int64.ofNat (entry.labels.idxOf s))) := by
  refine get?_ordinals distinct ?_
  rw [List.getElem?_eq_getElem (List.idxOf_lt_length_iff.2 h), List.getElem_idxOf]

end EnumEntry

theorem mapM_eq_some {α β : Type} {f : α → Option β} {g : α → β} {as : List α}
    (h : ∀ a ∈ as, f a = some (g a)) : as.mapM f = some (as.map g) := by
  induction as with
  | nil => rfl
  | cons a rest ih =>
    rw [List.mapM_cons, h a (List.mem_cons_self ..), ih fun a' mem => h a' (List.mem_cons_of_mem _ mem)]
    rfl

theorem mapM_eq_none {α β : Type} {f : α → Option β} {as : List α} (h : ∃ a ∈ as, f a = none) :
    as.mapM f = none := by
  induction as with
  | nil => simp at h
  | cons a rest ih =>
    rw [List.mapM_cons]
    cases ha : f a with
    | none => rfl
    | some b =>
      have later : ∃ a ∈ rest, f a = none := by
        simpa [ha] using h
      rw [ih later]
      rfl

namespace FieldInfo

section

variable (info : FieldInfo) (p : Program) (rounds : Nat) (labels : List String) (m : Machine)
  (a r : Nat)

-- A field of one option: what is set is an ordinal of a label, and is read back; what is read is the
-- ordinal of the label that is stored.
structure RoundTripsOne : Prop where
  set : ∀ n, IsOrdinal labels n → ∃ label ∈ labels,
    p.callMethod rounds (.object a) info.mutator [.int n] m =
        .ok [] (m.store r info.key (.str label)) ∧
      p.callMethod rounds (.object a) info.accessor [] (m.store r info.key (.str label)) =
        .ok [.int n] (m.store r info.key (.str label))
  refuse : ∀ n, ¬IsOrdinal labels n →
    p.callMethod rounds (.object a) info.mutator [.int n] m = .error .unknownOption m
  get : ∀ s, (m.record r).data.get? info.key = some (.str s) → s ∈ labels →
    p.callMethod rounds (.object a) info.accessor [] m =
      .ok [.int (Int64.ofNat (labels.idxOf s))] m
  reject : ∀ s, (m.record r).data.get? info.key = some (.str s) → s ∉ labels →
    p.callMethod rounds (.object a) info.accessor [] m = .error .unknownOption m

-- A field of many options does the same item by item.
structure RoundTripsMany : Prop where
  set : ∀ ns : List Int64, (∀ n ∈ ns, IsOrdinal labels n) → ∃ ss : List String, (∀ s ∈ ss, s ∈ labels) ∧
    p.callMethod rounds (.object a) info.mutator [.slice (ns.map .int)] m =
        .ok [] (m.store r info.key (.slice (ss.map .str))) ∧
      p.callMethod rounds (.object a) info.accessor [] (m.store r info.key (.slice (ss.map .str))) =
        .ok [.slice (ns.map .int)] (m.store r info.key (.slice (ss.map .str)))
  refuse : ∀ ns : List Int64, (∃ n ∈ ns, ¬IsOrdinal labels n) →
    p.callMethod rounds (.object a) info.mutator [.slice (ns.map .int)] m = .error .unknownOption m
  get : ∀ ss : List String, (m.record r).data.get? info.key = some (.slice (ss.map .str)) →
    (∀ s ∈ ss, s ∈ labels) →
    p.callMethod rounds (.object a) info.accessor [] m =
      .ok [.slice (ss.map fun s => .int (Int64.ofNat (labels.idxOf s)))] m
  reject : ∀ ss : List String, (m.record r).data.get? info.key = some (.slice (ss.map .str)) →
    (∃ s ∈ ss, s ∉ labels) →
    p.callMethod rounds (.object a) info.accessor [] m = .error .unknownOption m

def RoundTrips : Multiplicity → Prop
  | .single => info.RoundTripsOne p rounds labels m a r
  | .multi => info.RoundTripsMany p rounds labels m a r

end

end FieldInfo

section

variable {c : Catalog} {enums : EnumTable} {e : EntityFields} {info : FieldInfo} {entry : EnumEntry}
  {m : Machine} {a r : Nat} {multiplicity : Multiplicity}

theorem Machine.stored_store (hr : r < m.records.size) (v : Value) :
    ((m.store r info.key v).record r).data.get? info.key = some v := by
  rw [Machine.record_store hr, if_pos rfl]
  exact Table.get?_insert_self ..

namespace Catalog.EnumSite

theorem roundTripsOne (site : c.EnumSite enums m e info entry a r) (rounds : Nat)
    (class_ : info.classification? = some (.enumeration .single entry.name))
    (distinct : entry.labels.Nodup) (few : entry.labels.length ≤ 0x8000000000000000) :
    info.RoundTripsOne (c.program .standard enums []) rounds entry.labels m a r where
  set n hn := by
    refine ⟨entry.label n, List.mem_of_getElem? (EnumEntry.getElem?_of_isOrdinal hn), ?_, ?_⟩
    · rw [site.single_mutator class_, EnumEntry.texts_of_isOrdinal few hn]
      rfl
    · rw [(site.store _).single_accessor class_ (Machine.stored_store site.wraps.exist _),
        EnumEntry.ordinals_label distinct hn]
      rfl
  refuse n hn := by
    rw [site.single_mutator class_, EnumEntry.get?_texts_eq_none few hn]
    rfl
  get s stored hs := by
    rw [site.single_accessor class_ stored, EnumEntry.ordinals_of_mem distinct hs]
    rfl
  reject s stored hs := by
    rw [site.single_accessor class_ stored, EnumEntry.get?_ordinals_eq_none hs]
    rfl

theorem roundTripsMany (site : c.EnumSite enums m e info entry a r) (rounds : Nat)
    (class_ : info.classification? = some (.enumeration .multi entry.name))
    (distinct : entry.labels.Nodup) (few : entry.labels.length ≤ 0x8000000000000000) :
    info.RoundTripsMany (c.program .standard enums []) rounds entry.labels m a r where
  set ns hns := by
    have set : (ns.map MapKey.int).mapM entry.texts.get? =
        some ((ns.map entry.label).map .str) := by
      rw [List.mapM_map, List.map_map]
      exact mapM_eq_some fun n hn => EnumEntry.texts_of_isOrdinal few (hns n hn)
    have get : ((ns.map entry.label).map MapKey.str).mapM entry.ordinals.get? =
        some (ns.map .int) := by
      rw [List.map_map, List.mapM_map]
      exact mapM_eq_some fun n hn => EnumEntry.ordinals_label distinct (hns n hn)
    refine ⟨ns.map entry.label, fun s hs => ?_, ?_, ?_⟩
    · obtain ⟨n, hn, same⟩ := List.mem_map.1 hs
      exact same ▸ List.mem_of_getElem? (EnumEntry.getElem?_of_isOrdinal (hns n hn))
    · rw [site.multi_mutator class_, set]
      rfl
    · rw [(site.store _).multi_accessor class_ (Machine.stored_store site.wraps.exist _), get]
      rfl
  refuse ns bad := by
    obtain ⟨n, hn, out⟩ := bad
    rw [site.multi_mutator class_, mapM_eq_none]
    · rfl
    · exact ⟨.int n, List.mem_map_of_mem hn, EnumEntry.get?_texts_eq_none few out⟩
  get ss stored hss := by
    have get : (ss.map MapKey.str).mapM entry.ordinals.get? =
        some (ss.map fun s => .int (Int64.ofNat (entry.labels.idxOf s))) := by
      rw [List.mapM_map]
      exact mapM_eq_some fun s hs => EnumEntry.ordinals_of_mem distinct (hss s hs)
    rw [site.multi_accessor class_ stored, get]
    rfl
  reject ss stored bad := by
    obtain ⟨s, hs, out⟩ := bad
    rw [site.multi_accessor class_ stored, mapM_eq_none]
    · rfl
    · exact ⟨.str s, List.mem_map_of_mem hs, EnumEntry.get?_ordinals_eq_none out⟩

end Catalog.EnumSite

end

theorem Run.options_round_trip {schema : Schema} {g : Generated} (rounds : Nat)
    (implicit : ∀ e ∈ schema.entities, ∀ f ∈ e.fields, ∀ spec, f.enumeration = some spec →
      spec.constNames = none)
    (ok : (Run.ofSchema schema .standard []).result = .ok g) :
    ∃ m₀, g.program.load rounds {} = .ok () m₀ ∧
      ∀ e ∈ (Catalog.build schema .standard {}).value.entities, ∀ info ∈ e.fields,
        ∀ multiplicity enum spec, info.classification? = some (.enumeration multiplicity enum) →
        info.field.enumeration = some spec → spec.labels.length ≤ 0x8000000000000000 →
        info.site.param ∉ ["len", "make", "append", "panic"] →
        (∀ entry ∈ g.enums, info.site.param ≠ Settings.standard.nameTable entry.name ∧
          info.site.param ≠ Settings.standard.ordinalTable entry.name) →
        ∀ m a r, m₀.Keeps m → m.Wraps a e.name r →
          info.RoundTrips g.program rounds spec.labels m a r multiplicity := by
  obtain ⟨clean, program, enums⟩ := ofSchema_ok ok
  obtain ⟨m₀, run, loaded⟩ := Catalog.load_run (Catalog.build schema .standard {}).value [] rounds
    (Catalog.sound_enums_build schema .standard)
    (Catalog.entries_build implicit)
  rw [program]
  refine ⟨m₀, run, fun e he info hi multiplicity enum spec class_ declared few param param' m a r keeps
    wraps => ?_⟩
  have backed := (clean.built.fields e he).backed info hi _ class_
  cases backed with
  | @enumeration spec' entry _ declared' _ distinct found labels =>
    obtain rfl := Option.some.inj (declared.symm.trans declared')
    have mem : entry ∈ g.enums := enums ▸ List.mem_of_find?_eq_some found
    have site : (Catalog.build schema .standard {}).value.EnumSite
        (Catalog.build schema .standard {}).enums m e info entry a r :=
      { clean, entity := he, field := hi, param, wraps
        found := by simp [FieldInfo.enum?, class_, Classification.enum?, found]
        param' := (param' entry mem).2
        loaded := loaded.of_keeps keeps }
    rw [← labels] at few distinct ⊢
    cases multiplicity with
    | single => exact site.roundTripsOne rounds class_ distinct few
    | multi => exact site.roundTripsMany rounds class_ distinct few

theorem Run.options_round_trip_order_status :
    ∃ g m₀, (Run.ofSchema Schema.shop .standard []).result = .ok g ∧
      g.program.load 0 {} = .ok () m₀ ∧
      ∃ (info : FieldInfo) (m : Machine), info.name = "status" ∧ m.Wraps 0 "Order" 0 ∧
        info.RoundTrips g.program 0 ["new", "paid", "shipped"] m 0 0 .single := by
  obtain ⟨g, ok⟩ := Run.shop_ok
  obtain ⟨m₀, run, all⟩ := Run.options_round_trip 0 Schema.shop_implicit ok
  obtain ⟨e, he, order, info, hi, named, class_, declared, param⟩ :
      ∃ e ∈ (Catalog.build Schema.shop .standard {}).value.entities, e.name = "Order" ∧
        ∃ info ∈ e.fields, info.name = "status" ∧
          info.classification? = some (.enumeration .single "Status") ∧
          info.field.enumeration = some ⟨"Status", ["new", "paid", "shipped"], none⟩ ∧
          info.site.param = "status" := by decide +kernel
  have apart (enum suffix : String) : info.site.param ≠ "zz" ++ enum ++ suffix := fun same =>
    absurd (congrArg (·.toList.head?) (param.symm.trans same)) (by simp)
  let m : Machine := { m₀ with
    records := #[⟨"r1", "orders", .empty, .empty⟩]
    objects := #[⟨"Order", .ofList [(recordField, .record 0)]⟩] }
  have wraps : m.Wraps 0 e.name 0 := ⟨order.symm, rfl, Nat.zero_lt_one⟩
  refine ⟨g, m₀, ok, run, info, m, named, order ▸ wraps, ?_⟩
  exact all e he info hi .single "Status" _ class_ declared (by decide) (by rw [param]; decide)
    (fun entry _ => ⟨apart _ _, apart _ _⟩) m 0 0 ⟨rfl, Nat.le_refl _, fun _ _ => rfl⟩ wraps

end FieldAccess
