import FieldAccess.Proofs.CatalogContents
import FieldAccess.Proofs.OutputOrder
import FieldAccess.Proofs.EnumRoundTrip
import FieldAccess.Proofs.UntouchedFields

namespace FieldAccess

namespace Table

-- Keys that differ are all kept.
theorem size_ofList {κ : Type} [DecidableEq κ] {entries : List (κ × Value)}
    (distinct : (entries.map Prod.fst).Nodup) : (ofList entries).size = entries.length :=
  congrArg size (ofList_entries (t := ⟨entries⟩) distinct)

end Table

namespace EnumEntry

variable {entry : EnumEntry} {label : String} {i : Nat}

theorem getElem?_of_ordinalOf? (h : entry.ordinalOf? label = some i) :
    entry.labels[i]? = some label := by
  obtain ⟨before, after, split, _⟩ := List.lookup_eq_some_iff.1 h
  have mem : (label, i) ∈ entry.labels.zipIdx.reverse := by simp [split]
  exact List.mem_zipIdx_iff_getElem?.1 (List.mem_reverse.1 mem)

theorem isSome_ordinalOf? : (entry.ordinalOf? label).isSome ↔ label ∈ entry.labels := by
  rw [ordinalOf?, List.lookup_isSome_iff]
  constructor
  · rintro ⟨⟨label', i⟩, mem, same⟩
    obtain rfl : label = label' := by simpa using same
    exact List.mem_of_getElem? (List.mem_zipIdx_iff_getElem?.1 (List.mem_reverse.1 mem))
  · intro mem
    obtain ⟨i, hi⟩ := List.mem_iff_getElem?.1 mem
    exact ⟨(label, i), List.mem_reverse.2 (List.mem_zipIdx_iff_getElem?.2 hi), by simp⟩

theorem ordinalOf?_eq_some (distinct : entry.labels.Nodup) :
    entry.ordinalOf? label = some i ↔ entry.labels[i]? = some label := by
  refine ⟨getElem?_of_ordinalOf?, fun h => ?_⟩
  obtain ⟨j, found⟩ := Option.isSome_iff_exists.1 (isSome_ordinalOf?.2 (List.mem_of_getElem? h))
  have bound := (List.getElem?_eq_some_iff.1 h).1
  rw [found, (List.getElem?_inj bound distinct).1 (h.trans (getElem?_of_ordinalOf? found).symm)]

theorem labelOf?_of_nonneg {n : Int} (h : 0 ≤ n) : entry.labelOf? n = entry.labels[n.toNat]? := by
  obtain ⟨i, rfl⟩ := Int.eq_ofNat_of_zero_le h
  rfl

theorem isSome_labelOf? {n : Int} :
    (entry.labelOf? n).isSome ↔ 0 ≤ n ∧ n < entry.labels.length := by
  cases n with
  | ofNat i =>
    change (entry.labels[i]?).isSome ↔ 0 ≤ (i : Int) ∧ (i : Int) < _
    simp
  | negSucc i => exact ⟨nofun, fun h => absurd h.1 (Int.negSucc_not_nonneg i).1⟩

-- Labels and the integers below their number correspond.
structure Numbers (entry : EnumEntry) : Prop where
  inverse : ∀ label (i : Nat), entry.ordinalOf? label = some i ↔ entry.labelOf? i = some label
  labels : ∀ label, (entry.ordinalOf? label).isSome ↔ label ∈ entry.labels
  ordinals : ∀ n : Int, (entry.labelOf? n).isSome ↔ 0 ≤ n ∧ n < entry.labels.length

theorem numbers_of_nodup (distinct : entry.labels.Nodup) : entry.Numbers where
  inverse _ _ := ordinalOf?_eq_some distinct
  labels _ := isSome_ordinalOf?
  ordinals _ := isSome_labelOf?

-- What the table of ordinals has for a label.
theorem get?_ordinals_eq (distinct : entry.labels.Nodup) (label : String) :
    entry.ordinals.get? (.str label) =
      (entry.ordinalOf? label).map fun i => .int (Int64.ofNat i) := by
  cases found : entry.ordinalOf? label with
  | some i => exact get?_ordinals distinct (getElem?_of_ordinalOf? found)
  | none =>
    refine get?_ordinals_eq_none fun mem => ?_
    simp [found, ← isSome_ordinalOf?] at mem

-- What the table of labels has for an integer.
theorem get?_texts_eq (few : entry.labels.length ≤ 0x8000000000000000) (n : Int64) :
    entry.texts.get? (.int n) = (entry.labelOf? n.toInt).map .str := by
  by_cases ordinal : IsOrdinal entry.labels n
  · rw [texts_of_isOrdinal few ordinal, labelOf?_of_nonneg ordinal.1, getElem?_of_isOrdinal ordinal]
    rfl
  · have none : entry.labelOf? n.toInt = none := by
      rw [← Option.not_isSome_iff_eq_none, isSome_labelOf?]
      exact ordinal
    rw [none, get?_texts_eq_none few ordinal]
    rfl

theorem size_ordinals (distinct : entry.labels.Nodup) :
    entry.ordinals.size = entry.labels.length := by
  have keys := distinct.map fun _ _ => MapKey.str.inj
  rw [← List.zipIdx_map_fst 0 entry.labels, List.map_map] at keys
  rw [ordinals, Table.size_ofList, List.length_map, List.length_zipIdx]
  rwa [List.map_map]

theorem size_texts (few : entry.labels.length ≤ 0x8000000000000000) :
    entry.texts.size = entry.labels.length := by
  have keys : ((List.range' 0 entry.labels.length).map (MapKey.int ∘ Int64.ofNat)).Nodup := by
    refine List.Nodup.map_on (fun i hi j hj same => ?_) List.nodup_range'
    have ordinal := congrArg Int64.toInt (MapKey.int.inj same)
    simp only [List.mem_range'_1, Nat.zero_le, Nat.zero_add, true_and] at hi hj
    rw [Int64.toInt_ofNat_of_lt (by omega), Int64.toInt_ofNat_of_lt (by omega)] at ordinal
    exact Int.ofNat_inj.1 ordinal
  rw [← List.zipIdx_map_snd 0 entry.labels, List.map_map] at keys
  rw [texts, Table.size_ofList, List.length_map, List.length_zipIdx]
  rwa [List.map_map]

end EnumEntry

-- The two tables of an enumeration hold its labels and its ordinals, and nothing else.
structure Machine.HoldsTables (m : Machine) (settings : Settings) (entry : EnumEntry) : Prop where
  ordinals : ∃ t, m.HoldsMap (settings.nameTable entry.name) t ∧ t.size = entry.labels.length ∧
    ∀ label, t.get? (.str label) = (entry.ordinalOf? label).map fun i => .int (Int64.ofNat i)
  labels : ∃ t, m.HoldsMap (settings.ordinalTable entry.name) t ∧ t.size = entry.labels.length ∧
    ∀ n : Int64, t.get? (.int n) = (entry.labelOf? n.toInt).map .str

namespace Run

variable {schema : Schema} {settings : Settings} {methods : List FuncDecl} {g : Generated}
  {entry : EnumEntry}

-- Each enumeration of a run is that of some field.
theorem nodup_labels (mem : entry ∈ (Catalog.build schema settings {}).enums.entries) :
    entry.labels.Nodup := by
  rw [← Catalog.declaredWith_build] at mem
  have found := EnumTable.get?_of_mem_declaredWith mem
  obtain ⟨e, he, info, hi, uses⟩ := EnumTable.exists_of_mem_declaredWith mem
  obtain ⟨c, classified, enum⟩ := Option.bind_eq_some_iff.1 uses
  have backed := ((Catalog.build_spec schema settings).fields e he).backed info hi c classified
  cases backed with
  | primitive | relation => cases enum
  | @enumeration spec entry' _ _ _ distinct found' labels =>
    have same : entry'.name = entry.name := Option.some.inj enum
    rw [same, found] at found'
    obtain rfl := Option.some.inj found'
    exact labels ▸ distinct

end Run

namespace Machine

variable {m : Machine} {x y : String} {t u : Table MapKey}

-- A new map under a name.
def declareMap (m : Machine) (x : String) (t : Table MapKey) : Machine :=
  { m with maps := m.maps.push t, globals := m.globals.insert x (.map m.maps.size) }

theorem get?_declareMap_self : (m.declareMap x t).globals.get? x = some (.map m.maps.size) :=
  Table.get?_insert_self ..

theorem get?_declareMap_of_ne (other : y ≠ x) :
    (m.declareMap x t).globals.get? y = m.globals.get? y :=
  (Table.get?_insert ..).trans (if_neg other)

theorem holdsMap_declareMap : (m.declareMap x t).HoldsMap x t :=
  ⟨m.maps.size, by simp [declareMap], get?_declareMap_self, Machine.map_allocMap _⟩

theorem HoldsMap.declareMap (h : m.HoldsMap y u) (other : y ≠ x) :
    (m.declareMap x t).HoldsMap y u := by
  obtain ⟨a, ha, global, entries⟩ := h
  refine ⟨a, ?_, (get?_declareMap_of_ne other).trans global, ?_⟩
  · rw [Machine.declareMap, Array.size_push]
    exact Nat.lt_succ_of_lt ha
  · rw [← entries, map, map, Machine.declareMap, Array.getElem?_push, if_neg (Nat.ne_of_lt ha)]

-- What a step adds to the maps is determined.
theorem pushed_inj {α : Type} {a b : α}
    (h : (EStateM.Result.ok a { m with maps := m.maps.push t } : EStateM.Result ExecFault Machine α) =
      .ok b { m with maps := m.maps.push u }) : t = u :=
  (Array.push_eq_push.1 (congrArg Machine.maps (EStateM.Result.ok.inj h).2)).1

-- If the name had another value, a map is there now.
def Spared (m m' : Machine) (x : String) : Prop :=
  ∀ v, m.globals.get? x = some v →
    m'.globals.get? x = some v ∨ ∃ a, m'.globals.get? x = some (.map a)

end Machine

namespace Program

variable {p : Program} {rounds : Nat} {ds ds' : List Decl} {m m' : Machine}

-- Each variable of some declarations is given a new map.
def GivesMaps (p : Program) (rounds : Nat) (ds : List Decl) : Prop :=
  ∀ x e, .var x e ∈ ds → ∀ m v m',
    Exec.eval p (p.invoke rounds maxDepth) (.ofTable .empty) e m = .ok v m' →
    ∃ t, v = .map m.maps.size ∧ m' = { m with maps := m.maps.push t }

theorem GivesMaps.of_subset (gives : p.GivesMaps rounds ds) (sub : ds' ⊆ ds) :
    p.GivesMaps rounds ds' :=
  fun x e mem => gives x e (sub mem)

theorem loadVariables_append :
    p.loadVariables rounds (ds ++ ds') m =
      (p.loadVariables rounds ds >>= fun _ => p.loadVariables rounds ds') m := by
  induction ds generalizing m with
  | nil => rfl
  | cons d rest ih =>
    cases d with
    | var x e =>
      simp only [List.cons_append, loadVariables, bind_assoc]
      refine congrFun (bind_congr (m := Exec) fun v => bind_congr (m := Exec) fun _ => ?_) m
      exact funext fun m => ih
    | _ => exact ih

theorem loadVariables_var {x : String} {e : Expr} (gives : p.GivesMaps rounds (.var x e :: ds))
    (run : p.loadVariables rounds (.var x e :: ds) m = .ok () m') :
    ∃ t, Exec.eval p (p.invoke rounds maxDepth) (.ofTable .empty) e m =
        .ok (.map m.maps.size) { m with maps := m.maps.push t } ∧
      p.loadVariables rounds ds (m.declareMap x t) = .ok () m' := by
  rw [loadVariables] at run
  obtain ⟨v, m₁, value, run⟩ := Exec.ok_bind.1 run
  obtain ⟨t, rfl, rfl⟩ := gives x e (List.mem_cons_self ..) _ _ _ value
  exact ⟨t, value, run⟩

-- What is loaded later only puts maps under the names that it declares.
theorem loadVariables_keeps (gives : p.GivesMaps rounds ds)
    (run : p.loadVariables rounds ds m = .ok () m') :
    (∀ x, m.Spared m' x) ∧
      ∀ x t, (∀ e, .var x e ∉ ds) → m.HoldsMap x t → m'.HoldsMap x t := by
  induction ds generalizing m with
  | nil =>
    obtain rfl := (Exec.ok_pure.1 run).2
    exact ⟨fun x v h => .inl h, fun _ _ _ h => h⟩
  | cons d rest ih =>
    have later {m : Machine} (run : p.loadVariables rounds rest m = .ok () m') :=
      ih (m := m) (gives.of_subset (List.subset_cons_self ..)) run
    cases d with
    | var y e =>
      obtain ⟨t, _, run⟩ := loadVariables_var gives run
      obtain ⟨spared, held⟩ := later run
      refine ⟨fun x v h => ?_, fun x u other h => ?_⟩
      · by_cases same : x = y
        · subst same
          rcases spared x _ Machine.get?_declareMap_self with h | h
          · exact .inr ⟨_, h⟩
          · exact .inr h
        · exact spared x v ((Machine.get?_declareMap_of_ne same).trans h)
      · have different : x ≠ y := fun same => other e (same ▸ List.mem_cons_self ..)
        exact held x u (fun e mem => other e (List.mem_cons_of_mem _ mem)) (h.declareMap different)
    | _ =>
      obtain ⟨spared, held⟩ := later run
      exact ⟨spared, fun x t other => held x t fun e mem => other e (List.mem_cons_of_mem _ mem)⟩

end Program

namespace Code

variable {p : Program} {call : CallHandler} {f : Frame} {span : Span} {m m' : Machine} {v : Value}

-- All keys of a literal that is evaluated are keys.
theorem keys_of_mapEntries {pairs : List (Expr × Expr)} {t t' : Table MapKey}
    (quiet : ∀ pair ∈ pairs, Quiet p call f pair)
    (run : Exec.mapEntries t (Exec.entries p call f (pairs.map fun pair => .keyed pair.1 pair.2)) m =
      .ok t' m') :
    ∀ pair ∈ pairs, ∃ v, Exec.eval p call f pair.1 m = .ok v m ∧ v.key?.isSome := by
  induction pairs generalizing t with
  | nil => nofun
  | cons pair rest ih =>
    obtain ⟨key, value⟩ := quiet pair (List.mem_cons_self ..) m
    rw [List.map_cons, Exec.entries, Exec.mapEntries] at run
    obtain ⟨_, _, run⟩ := (Exec.Reads.orFail _ _ : Exec.Reads m m _).ok_bind run
    obtain ⟨v, hv, run⟩ := key.ok_bind run
    obtain ⟨k, hk, run⟩ := (Exec.Reads.orFail _ _ : Exec.Reads m m _).ok_bind run
    obtain ⟨_, _, run⟩ := value.ok_bind run
    refine List.forall_mem_cons.2 ⟨⟨v, hv, ?_⟩, ih (fun pair mem => quiet pair (.tail _ mem)) run⟩
    cases known : v.key? with
    | some k => rfl
    | none =>
      rw [known] at hk
      cases hk

end Code

namespace EnumEntry

variable {p : Program} {call : CallHandler} {f : Frame} {span : Span} {m m' : Machine} {v : Value}
  {entry : EnumEntry} {settings : Settings}

theorem exists_option (count : entry.constNames.length = entry.labels.length) {const : String}
    (h : const ∈ entry.constNames) : ∃ label, (label, const) ∈ entry.options := by
  rw [← List.map_snd_zip (Nat.le_of_eq count)] at h
  obtain ⟨⟨label, _⟩, mem, rfl⟩ := List.mem_map.1 h
  exact ⟨label, mem⟩

-- Where the table of labels is evaluated, no constant is hidden by a map.
theorem not_map_of_texts {key element : TypeExpr} (blank : ∀ x, f.get? x = none)
    (count : entry.constNames.length = entry.labels.length)
    (run : Exec.eval p call f (Code.table span (.map key element) (entry.options.map
      fun (label, const) => (Code.ident span const, Code.text span label))) m = .ok v m') :
    ∀ const ∈ entry.constNames, ∀ a, m.globals.get? const ≠ some (.map a) := by
  intro const hc a hidden
  have quiet : ∀ pair ∈ entry.options.map
      (fun (label, const) => (Code.ident span const, Code.text span label)),
      Code.Quiet p call f pair := by
    intro pair mem m
    obtain ⟨⟨label, const⟩, _, rfl⟩ := List.mem_map.1 mem
    exact ⟨(Exec.binding_reads (.refl m) const).bind fun _ _ => .orFail _ _, .pure _⟩
  rw [Code.table, Exec.eval, Exec.mapLiteral] at run
  obtain ⟨t, entries, _⟩ := (Code.mapEntries_reads quiet .empty).ok_bind run
  obtain ⟨label, option⟩ := exists_option count hc
  obtain ⟨v, value, isKey⟩ := Code.keys_of_mapEntries quiet entries _ (List.mem_map_of_mem option)
  rw [Code.eval_variable, Exec.binding?, blank] at value
  change Exec.orFail _ (m.globals.get? const) m = _ at value
  rw [hidden] at value
  cases value
  cases isKey

-- A machine in which both tables of an enumeration are evaluated one after the other, and that has
-- the constants or maps in their place, has the constants.
theorem declares_tables {rounds : Nat} {ds : List Decl} {m₀ : Machine}
    (count : entry.constNames.length = entry.labels.length) (defines : m₀.Defines entry.constants)
    (spared : ∀ x, m₀.Spared m x)
    (gives : p.GivesMaps rounds (entry.declarations settings ++ ds))
    (run : p.loadVariables rounds (entry.declarations settings ++ ds) m = .ok () m') :
    p.loadVariables rounds ds
      ((m.declareMap (settings.nameTable entry.name) entry.ordinals).declareMap
        (settings.ordinalTable entry.name) entry.texts) = .ok () m' := by
  obtain ⟨t, first, run⟩ := Program.loadVariables_var
    (gives.of_subset fun d hd => .tail _ (.tail _ hd)) run
  obtain ⟨u, second, run⟩ := Program.loadVariables_var
    (gives.of_subset fun d hd => .tail _ (.tail _ (.tail _ hd))) run
  have free := not_map_of_texts (fun _ => rfl) count second
  have apart : ∀ const ∈ entry.constNames, const ≠ settings.nameTable entry.name := by
    rintro const hc rfl
    exact free _ hc _ Machine.get?_declareMap_self
  have here : m.Defines entry.constants := by
    intro c hc
    obtain ⟨i, hi, _⟩ := mem_constants.1 hc
    have mem := List.mem_of_getElem? hi
    refine (spared c.1 c.2 (defines c hc)).resolve_right fun ⟨a, hidden⟩ => free c.1 mem a ?_
    exact (Machine.get?_declareMap_of_ne (apart c.1 mem)).trans hidden
  have later : (m.declareMap (settings.nameTable entry.name) t).Defines entry.constants := by
    intro c hc
    obtain ⟨i, hi, _⟩ := mem_constants.1 hc
    exact (Machine.get?_declareMap_of_ne (apart c.1 (List.mem_of_getElem? hi))).trans (here c hc)
  obtain rfl : t = entry.ordinals := by
    refine Machine.pushed_inj (first.symm.trans (Code.eval_table ?_))
    exact gives_options count here (fun _ => rfl) fun label const i h => ⟨rfl, h⟩
  obtain rfl : u = entry.texts := by
    refine Machine.pushed_inj (second.symm.trans (Code.eval_table ?_))
    exact gives_options count later (fun _ => rfl) fun label const i h => ⟨h, rfl⟩
  exact run

end EnumEntry

namespace Catalog

variable {c : Catalog} {settings : Settings} {enums : EnumTable} {methods : List FuncDecl}
  {emitted : List String} {es : List EntityFields} {entry : EnumEntry} {rounds : Nat} {m : Machine}

variable (settings methods) in
-- The declarations of an enumeration stand together.
theorem exists_split (h : entry ∈ enums.declaredWith emitted es) :
    ∃ before after, declarationsFrom enums settings methods emitted es =
      before ++ (entry.declarations settings ++ after) := by
  induction es generalizing emitted with
  | nil => cases h
  | cons e rest ih =>
    rw [declarationsFrom]
    rcases List.mem_append.1 h with first | later
    · obtain ⟨before, after, split⟩ := List.append_of_mem first
      rw [split, List.flatMap_append, List.flatMap_cons]
      simp only [List.append_assoc]
      exact ⟨_, _, rfl⟩
    · obtain ⟨before, after, split⟩ := ih later
      rw [split]
      exact ⟨_, _, (List.append_assoc ..).symm⟩

-- A table is declared once.
theorem var_not_mem_after {before after : List Decl} {x : String} {e e' : Expr}
    (built : EntitiesBuilt settings enums c.entities)
    (split : (c.program settings enums methods).declarations =
      before ++ (entry.declarations settings ++ after))
    (mem : .var x e ∈ entry.declarations settings) : .var x e' ∉ after := fun mem' => by
  have named {ds : List Decl} {e : Expr} (mem : .var x e ∈ ds) :
      x ∈ ds.flatMap Decl.namesOfHelpers :=
    List.mem_flatMap.2 ⟨.var x e, mem, List.mem_singleton_self x⟩
  have names := nodup_namesOfHelpers methods built
  change ((c.program settings enums methods).declarations.flatMap Decl.namesOfHelpers).Nodup at names
  rw [split, List.flatMap_append, List.flatMap_append] at names
  exact (List.nodup_append.1 (List.nodup_append.1 names).2.1).2.2 x (named mem) x (named mem') rfl

-- Once the variables of a catalog are loaded, both tables of each declared enumeration are there.
theorem holds_of_load (built : EntitiesBuilt settings enums c.entities) (sound : enums.Sound)
    (count : entry.constNames.length = entry.labels.length)
    (run : (c.program settings enums methods).load rounds {} = .ok () m)
    (declared : entry ∈ enums.declaredWith [] c.entities) :
    m.HoldsMap (settings.nameTable entry.name) entry.ordinals ∧
      m.HoldsMap (settings.ordinalTable entry.name) entry.texts := by
  let p := c.program settings enums methods
  obtain ⟨before, after, split⟩ := exists_split settings methods declared
  have split : p.declarations = before ++ (entry.declarations settings ++ after) := split
  have gives : p.GivesMaps rounds (before ++ (entry.declarations settings ++ after)) :=
    split ▸ fun x e mem _ _ _ eval => eval_var_ok mem eval
  have defines : Machine.Defines
      { globals := Table.empty.insertAll (p.declarations.flatMap Decl.constants) }
      entry.constants := fun const hc => by
    refine defines_constants sound const (List.mem_flatMap.2 ⟨_, ?_, hc⟩)
    rw [show (c.program settings enums methods).declarations = _ from split]
    exact List.mem_append_right _ (List.mem_append_left _ (.tail _ (.head _)))
  rw [Program.load, Exec.bind_of_ok (Program.loadAllConstants_run _ _)] at run
  have run : (p.loadVariables rounds before >>= fun _ =>
      p.loadVariables rounds (entry.declarations settings ++ after)) _ = .ok () m :=
    Program.loadVariables_append.symm.trans (split ▸ run)
  obtain ⟨_, m₁, first, run⟩ := Exec.ok_bind.1 run
  obtain ⟨spared, _⟩ := Program.loadVariables_keeps
    (gives.of_subset (List.subset_append_left ..)) first
  have run := EnumEntry.declares_tables count (split ▸ defines) spared
    (gives.of_subset (List.subset_append_right ..)) run
  obtain ⟨_, held⟩ := Program.loadVariables_keeps
    (gives.of_subset (List.subset_append_of_subset_right _ (List.subset_append_right ..))) run
  constructor
  · refine held _ _ (fun _ => var_not_mem_after built split (.tail _ (.tail _ (.head _)))) ?_
    exact Machine.holdsMap_declareMap.declareMap Settings.nameTable_ne_ordinalTable
  · refine held _ _ (fun _ => var_not_mem_after built split (.tail _ (.tail _ (.tail _ (.head _))))) ?_
    exact Machine.holdsMap_declareMap

end Catalog

namespace Run

variable {schema : Schema} {settings : Settings} {g : Generated} {entry : EnumEntry} {m : Machine}
  {rounds : Nat}
  (implicit : ∀ e ∈ schema.entities, ∀ f ∈ e.fields, ∀ spec, f.enumeration = some spec →
    spec.constNames = none)
  (ok : (ofSchema schema settings []).result = .ok g)

include implicit ok

theorem holdsTables_of_load (run : g.program.load rounds {} = .ok () m) (mem : entry ∈ g.enums)
    (few : entry.labels.length ≤ 0x8000000000000000) :
    entry.labels.Nodup ∧ m.HoldsTables settings entry := by
  obtain ⟨clean, program, enums⟩ := ofSchema_ok ok
  rw [program] at run
  rw [enums] at mem
  have distinct := nodup_labels mem
  obtain ⟨ordinals, texts⟩ := Catalog.holds_of_load clean.built
    (Catalog.sound_enums_build schema settings) (Catalog.entries_build implicit entry mem).1 run
    (Catalog.declaredWith_build schema settings ▸ mem)
  exact ⟨distinct,
    ⟨_, ordinals, EnumEntry.size_ordinals distinct, EnumEntry.get?_ordinals_eq distinct⟩,
    ⟨_, texts, EnumEntry.size_texts few, EnumEntry.get?_texts_eq few⟩⟩

-- Constants that are made from labels start with no lower-case letter.
theorem exists_load_of_lower (rounds : Nat)
    (lower : ∃ c ∈ settings.helperLead.toList.head?, c.isLower = true) :
    ∃ m, g.program.load rounds {} = .ok () m := by
  obtain ⟨_, program, _⟩ := ofSchema_ok ok
  obtain ⟨c, head, lower⟩ := lower
  have named : ∀ entry ∈ (Catalog.build schema settings {}).enums.entries, _ :=
    Catalog.entries_build implicit
  have apart (enum suffix : String) {entry : EnumEntry}
      (mem : entry ∈ (Catalog.build schema settings {}).enums.entries) :
      settings.helperLead ++ enum ++ suffix ∉ entry.constNames := fun hc => by
    have high := (named entry mem).2 _ hc c (by
      rw [String.toList_append, String.toList_append]
      exact List.mem_head?_append_of_mem_head? (List.mem_head?_append_of_mem_head? head))
    simp [lower] at high
  obtain ⟨m, run, _⟩ := Catalog.load_declared (Catalog.build schema settings {}).value [] rounds
    (Catalog.sound_enums_build schema settings) (fun entry mem => (named entry mem).1)
    fun x value declared entry mem => by
      obtain ⟨_, _, rfl | rfl⟩ := Catalog.table_of_var declared
      · exact apart _ _ mem
      · exact apart _ _ mem
  exact ⟨m, program ▸ run⟩

omit implicit ok

-- Labels and ordinals correspond in every entry, and in the tables of every output that is loaded, as
-- ordinals are 64-bit integers and no list in memory has more labels. An output is loaded under any
-- lead of helpers that constants of labels cannot have.
theorem labels_ordinals_correspond :
    (∀ entry : EnumEntry, entry.labels.Nodup → entry.Numbers) ∧
    ∀ (schema : Schema) (settings : Settings) (g : Generated) (rounds : Nat),
      (∀ e ∈ schema.entities, ∀ f ∈ e.fields, ∀ spec, f.enumeration = some spec →
        spec.constNames = none) →
      (ofSchema schema settings []).result = .ok g →
      (∀ m, g.program.load rounds {} = .ok () m → ∀ entry ∈ g.enums,
        entry.labels.length ≤ 0x8000000000000000 →
        entry.labels.Nodup ∧ m.HoldsTables settings entry) ∧
      ((∃ c ∈ settings.helperLead.toList.head?, c.isLower = true) →
        ∃ m, g.program.load rounds {} = .ok () m) :=
  ⟨fun _ => EnumEntry.numbers_of_nodup, fun _ _ _ rounds implicit ok =>
    ⟨fun _ run _ => holdsTables_of_load implicit ok run, exists_load_of_lower implicit ok rounds⟩⟩

-- The shop is loaded, and the labels of its orders correspond to the first integers.
theorem labels_ordinals_correspond_shop : ∃ g m, (ofSchema .shop .standard []).result = .ok g ∧
    g.program.load 0 {} = .ok () m ∧
    ∃ entry ∈ g.enums, entry.labels = ["new", "paid", "shipped"] ∧ entry.Numbers ∧
      m.HoldsTables .standard entry := by
  obtain ⟨g, ok⟩ := shop_ok
  obtain ⟨numbers, all⟩ := labels_ordinals_correspond
  obtain ⟨tables, loads⟩ := all _ _ g 0 Schema.shop_implicit ok
  obtain ⟨m, run⟩ := loads ⟨'z', by decide⟩
  obtain ⟨entry, mem, labels⟩ : ∃ entry ∈ g.enums, entry.labels = ["new", "paid", "shipped"] := by
    rw [(ofSchema_ok ok).2.2]
    decide +kernel
  obtain ⟨distinct, held⟩ := tables m run entry mem (by rw [labels]; decide)
  exact ⟨g, m, ok, run, entry, mem, labels, numbers entry distinct, held⟩

end Run

end FieldAccess
