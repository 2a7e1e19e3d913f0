import Mathlib.Data.List.Pairwise
import FieldAccess.Proofs.CodeRuns
import FieldAccess.Proofs.ConstantNames
import FieldAccess.Proofs.Runs
import FieldAccess.Proofs.WrapperMembers
import FieldAccess.Schema.Samples

namespace FieldAccess

namespace Table

variable {κ : Type} [DecidableEq κ] {t : Table κ} {entries : List (κ × Value)} {k : κ} {v : Value}

def insertAll (t : Table κ) (entries : List (κ × Value)) : Table κ :=
  entries.foldl (fun t e => t.insert e.1 e.2) t

theorem insertAll_cons (e : κ × Value) :
    t.insertAll (e :: entries) = (t.insert e.1 e.2).insertAll entries := rfl

theorem insertAll_append (more : List (κ × Value)) :
    t.insertAll (entries ++ more) = (t.insertAll entries).insertAll more :=
  List.foldl_append

theorem get?_insertAll_of_not_mem (h : k ∉ entries.map Prod.fst) :
    (t.insertAll entries).get? k = t.get? k := by
  induction entries generalizing t with
  | nil => rfl
  | cons e rest ih =>
    simp only [List.map_cons, List.mem_cons, not_or] at h
    rw [insertAll_cons, ih h.2, get?_insert, if_neg h.1]

-- A key is found with the one value that it was set to.
theorem get?_insertAll (mem : (k, v) ∈ entries) (unique : ∀ w, (k, w) ∈ entries → w = v) :
    (t.insertAll entries).get? k = some v := by
  induction entries generalizing t with
  | nil => cases mem
  | cons e rest ih =>
    rw [insertAll_cons]
    by_cases later : k ∈ rest.map Prod.fst
    · obtain ⟨e', mem', same⟩ := List.mem_map.1 later
      obtain ⟨k', w⟩ := e'
      obtain rfl : k' = k := same
      obtain rfl := unique w (List.mem_cons_of_mem _ mem')
      exact ih mem' fun w' hw => unique w' (List.mem_cons_of_mem _ hw)
    · rw [get?_insertAll_of_not_mem later]
      rcases List.mem_cons.1 mem with rfl | mem
      · exact get?_insert_self ..
      · exact absurd (List.mem_map_of_mem (f := Prod.fst) mem) later

-- What is found was set, or was there before.
theorem get?_insertAll_cases (h : (t.insertAll entries).get? k = some v) :
    (k, v) ∈ entries ∨ t.get? k = some v := by
  induction entries generalizing t with
  | nil => exact .inr h
  | cons e rest ih =>
    rcases ih h with mem | set
    · exact .inl (List.mem_cons_of_mem _ mem)
    · rw [get?_insert] at set
      split at set
      case isTrue same =>
        obtain rfl := Option.some.inj set
        exact .inl (same ▸ List.mem_cons_self ..)
      case isFalse => exact .inr set

end Table

namespace EnumEntry

variable {e : EnumEntry} {s : String} {i : Nat} {n : Int64}

-- The ordinals of the labels.
def ordinals (e : EnumEntry) : Table MapKey :=
  .ofList (e.labels.zipIdx.map fun option => (.str option.1, .int (Int64.ofNat option.2)))

-- The labels of the ordinals.
def texts (e : EnumEntry) : Table MapKey :=
  .ofList (e.labels.zipIdx.map fun option => (.int (Int64.ofNat option.2), .str option.1))

theorem mem_ordinals {k : MapKey} {v : Value} :
    (k, v) ∈ e.labels.zipIdx.map (fun option =>
        ((.str option.1, .int (Int64.ofNat option.2)) : MapKey × Value)) ↔
      ∃ s i, e.labels[i]? = some s ∧ k = .str s ∧ v = .int (Int64.ofNat i) := by
  simp only [List.mem_map, List.mem_zipIdx_iff_getElem?, Prod.exists, Prod.mk.injEq, eq_comm]

theorem mem_texts {k : MapKey} {v : Value} :
    (k, v) ∈ e.labels.zipIdx.map (fun option =>
        ((.int (Int64.ofNat option.2), .str option.1) : MapKey × Value)) ↔
      ∃ s i, e.labels[i]? = some s ∧ k = .int (Int64.ofNat i) ∧ v = .str s := by
  simp only [List.mem_map, List.mem_zipIdx_iff_getElem?, Prod.exists, Prod.mk.injEq, eq_comm]

theorem get?_ordinals (distinct : e.labels.Nodup) (label : e.labels[i]? = some s) :
    e.ordinals.get? (.str s) = some (.int (Int64.ofNat i)) := by
  refine Table.get?_insertAll (mem_ordinals.2 ⟨s, i, label, rfl, rfl⟩) fun w hw => ?_
  obtain ⟨s', j, label', same, e⟩ := mem_ordinals.1 hw
  cases same
  have bound := (List.getElem?_eq_some_iff.1 label).1
  rw [e, (List.getElem?_inj bound distinct).1 (label.trans label'.symm)]

theorem get?_ordinals_eq_none (h : s ∉ e.labels) : e.ordinals.get? (.str s) = none := by
  refine Table.get?_insertAll_of_not_mem fun mem => h ?_
  obtain ⟨⟨k, v⟩, mem, same⟩ := List.mem_map.1 mem
  obtain ⟨s', i, label, e, _⟩ := mem_ordinals.1 mem
  obtain rfl : k = _ := same
  cases e
  exact List.mem_of_getElem? label

-- Ordinals are different as long as there are no more labels than integers.
theorem get?_texts (few : e.labels.length ≤ 0x8000000000000000) (label : e.labels[i]? = some s) :
    e.texts.get? (.int (Int64.ofNat i)) = some (.str s) := by
  refine Table.get?_insertAll (mem_texts.2 ⟨s, i, label, rfl, rfl⟩) fun w hw => ?_
  obtain ⟨s', j, label', same, e⟩ := mem_texts.1 hw
  have bound := (List.getElem?_eq_some_iff.1 label).1
  have bound' := (List.getElem?_eq_some_iff.1 label').1
  have ordinal := congrArg Int64.toInt (MapKey.int.inj same)
  rw [Int64.toInt_ofNat_of_lt (by omega), Int64.toInt_ofNat_of_lt (by omega)] at ordinal
  obtain rfl : i = j := by omega
  rw [e, Option.some.inj (label.symm.trans label')]

theorem get?_texts_eq_none (few : e.labels.length ≤ 0x8000000000000000)
    (h : ¬(0 ≤ n.toInt ∧ n.toInt < e.labels.length)) : e.texts.get? (.int n) = none := by
  refine Table.get?_insertAll_of_not_mem fun mem => h ?_
  obtain ⟨⟨k, v⟩, mem, same⟩ := List.mem_map.1 mem
  obtain ⟨s', i, label, e, _⟩ := mem_texts.1 mem
  obtain rfl : k = _ := same
  cases e
  have bound := (List.getElem?_eq_some_iff.1 label).1
  rw [Int64.toInt_ofNat_of_lt (by omega)]
  omega

end EnumEntry

-- A package variable holds a map with these entries.
def Machine.HoldsMap (m : Machine) (x : String) (t : Table MapKey) : Prop :=
  ∃ a < m.maps.size, m.globals.get? x = some (.map a) ∧ m.map a = t

-- Package variables are as they were, and so are the maps that they may hold.
structure Machine.Keeps (m m' : Machine) : Prop where
  globals : m'.globals = m.globals
  mapsLe : m.maps.size ≤ m'.maps.size
  map : ∀ a < m.maps.size, m'.map a = m.map a

theorem Machine.HoldsMap.of_keeps {m m' : Machine} {x : String} {t : Table MapKey}
    (h : m.HoldsMap x t) (keeps : m.Keeps m') : m'.HoldsMap x t :=
  have ⟨a, ha, global, entries⟩ := h
  ⟨a, Nat.lt_of_lt_of_le ha keeps.mapsLe, keeps.globals ▸ global, (keeps.map a ha).trans entries⟩

-- Each constant has its value.
def Machine.Defines (m : Machine) (consts : List (String × Value)) : Prop :=
  ∀ c ∈ consts, m.globals.get? c.1 = some c.2

-- The constants of a declaration, with their values.
def Decl.constants : Decl → List (String × Value)
  | .consts _ names => names.zipIdx.map fun c => (c.1, .int (Int64.ofNat c.2))
  | _ => []

namespace Program

variable {p : Program} {rounds : Nat} {m : Machine}

theorem loadConstants_run (names : List String) (m : Machine) :
    loadConstants names m = .ok () { m with
      globals := m.globals.insertAll (names.zipIdx.map fun c => (c.1, .int (Int64.ofNat c.2))) } := by
  have all (cs : List (String × Nat)) (m : Machine) :
      cs.foldl (fun m c => m.setGlobal c.1 (.int (Int64.ofNat c.2))) m = { m with
        globals := m.globals.insertAll (cs.map fun c => (c.1, .int (Int64.ofNat c.2))) } := by
    induction cs generalizing m with
    | nil => rfl
    | cons c rest ih => exact ih _
  exact congrArg (EStateM.Result.ok ()) (all names.zipIdx m)

theorem loadAllConstants_run (ds : List Decl) (m : Machine) :
    loadAllConstants ds m =
      .ok () { m with globals := m.globals.insertAll (ds.flatMap Decl.constants) } := by
  induction ds generalizing m with
  | nil => rfl
  | cons d rest ih =>
    cases d with
    | consts type names =>
      rw [loadAllConstants, Exec.bind_of_ok (loadConstants_run names m), ih, List.flatMap_cons,
        Table.insertAll_append]
      rfl
    | _ => exact ih m

section

variable (content : String → Table MapKey → Prop) {consts : List (String × Value)} {ds : List Decl}

-- Each variable that is declared with a table holds that table when all variables are loaded, and
-- nothing else is set.
theorem loadVariables_run
    (value : ∀ x e, .var x e ∈ ds → ∀ m : Machine, m.Defines consts →
      ∃ t, content x t ∧ Exec.eval p (p.invoke rounds maxDepth) (.ofTable .empty) e m =
        .ok (.map m.maps.size) { m with maps := m.maps.push t })
    (apart : ∀ x e, .var x e ∈ ds → x ∉ consts.map Prod.fst)
    (unique : ∀ {x t t'}, content x t → content x t' → t = t') (defines : m.Defines consts) :
    ∃ m', p.loadVariables rounds ds m = .ok () m' ∧
      (∀ x t, content x t → ((∃ e, .var x e ∈ ds) ∨ m.HoldsMap x t) → m'.HoldsMap x t) ∧
      ∀ x, (∀ e, .var x e ∉ ds) → m'.globals.get? x = m.globals.get? x := by
  induction ds generalizing m with
  | nil => exact ⟨m, rfl, by simp, fun _ _ => rfl⟩
  | cons d rest ih =>
    have later {m : Machine} (defines : m.Defines consts) :=
      ih (m := m) (fun x e mem => value x e (List.mem_cons_of_mem _ mem))
        (fun x e mem => apart x e (List.mem_cons_of_mem _ mem)) defines
    cases d with
    | var x e =>
      obtain ⟨t, ht, run⟩ := value x e (List.mem_cons_self ..) m defines
      let m₁ : Machine := { m with
        maps := m.maps.push t, globals := m.globals.insert x (.map m.maps.size) }
      have new := apart x e (List.mem_cons_self ..)
      have defines₁ : m₁.Defines consts := fun c hc => by
        have other : c.1 ≠ x := fun same => new (same ▸ List.mem_map_of_mem hc)
        exact (Table.get?_insert ..).trans ((if_neg other).trans (defines c hc))
      obtain ⟨m', run', held, others⟩ := later defines₁
      refine ⟨m', ?_, fun y u hu given => held y u hu ?_, fun y hy => ?_⟩
      · rw [loadVariables, Exec.bind_of_ok run]
        exact run'
      · by_cases same : y = x
        · subst same
          obtain rfl := unique ht hu
          exact .inr ⟨m.maps.size, by simp [m₁], Table.get?_insert_self .., Machine.map_allocMap _⟩
        · rcases given with ⟨e', mem⟩ | ⟨a, ha, global, entries⟩
          · rcases List.mem_cons.1 mem with eq | mem
            · cases eq
              exact absurd rfl same
            · exact .inl ⟨e', mem⟩
          · refine .inr ⟨a, ?_, ?_, ?_⟩
            · rw [Array.size_push]
              omega
            · exact (Table.get?_insert ..).trans ((if_neg same).trans global)
            · rw [← entries, Machine.map, Array.getElem?_push, if_neg (Nat.ne_of_lt ha), Machine.map]
      · rw [others y fun e' mem => hy e' (List.mem_cons_of_mem _ mem)]
        refine (Table.get?_insert ..).trans (if_neg fun same => ?_)
        exact hy e (same ▸ List.mem_cons_self ..)
    | _ =>
      obtain ⟨m', run', held, others⟩ := later defines
      refine ⟨m', run', fun y u hu given => held y u hu ?_, fun y hy => ?_⟩
      · simpa using given
      · exact others y fun e mem => hy e (List.mem_cons_of_mem _ mem)

end

end Program

namespace Code

variable {p : Program} {call : CallHandler} {f : Frame} {span : Span} {m : Machine}
  {pairs : List (Expr × Expr)} {found : List (MapKey × Value)}

-- An entry of a literal is evaluated to a key and a value.
def Gives (p : Program) (call : CallHandler) (f : Frame) (m : Machine) (pair : Expr × Expr)
    (entry : MapKey × Value) : Prop :=
  Exec.eval p call f pair.1 m = .ok entry.1.toValue m ∧ Exec.eval p call f pair.2 m = .ok entry.2 m

theorem mapEntries_run (h : List.Forall₂ (Gives p call f m) pairs found) (t : Table MapKey) :
    Exec.mapEntries t (Exec.entries p call f (pairs.map fun pair => .keyed pair.1 pair.2)) m =
      .ok (t.insertAll found) m := by
  induction h generalizing t with
  | nil => rfl
  | @cons pair entry _ _ head _ ih =>
    have key : Exec.mapKey entry.1.toValue m = .ok entry.1 m := by
      rw [Exec.mapKey, Value.key?_toValue]
      rfl
    rw [List.map_cons, Exec.entries, Exec.mapEntries, Table.insertAll_cons, ← ih]
    dsimp only
    rw [show Exec.orFail _ (some pair.1) = pure pair.1 from rfl, pure_bind, Exec.bind_of_ok head.1,
      Exec.bind_of_ok key, Exec.bind_of_ok head.2]

theorem eval_table {key element : TypeExpr} (h : List.Forall₂ (Gives p call f m) pairs found) :
    Exec.eval p call f (table span (.map key element) pairs) m =
      .ok (.map m.maps.size) { m with maps := m.maps.push (.ofList found) } := by
  rw [table, Exec.eval, Exec.mapLiteral, Exec.bind_of_ok (mapEntries_run h .empty)]
  rfl

end Code

namespace Settings

variable {s : Settings} {a b lead suffix suffix' : String}

-- The name of a table tells the enumeration and what the table is for.
theorem table_inj (length : suffix.length = suffix'.length)
    (h : lead ++ a ++ suffix = lead ++ b ++ suffix') : a = b ∧ suffix = suffix' := by
  have texts := congrArg String.toList h
  simp only [String.toList_append] at texts
  obtain ⟨start, rest⟩ := List.append_inj' texts (by simpa only [String.length_toList])
  exact ⟨String.toList_inj.1 (List.append_cancel_left start), String.toList_inj.1 rest⟩

theorem nameTable_inj (h : s.nameTable a = s.nameTable b) : a = b :=
  (table_inj rfl h).1

theorem ordinalTable_inj (h : s.ordinalTable a = s.ordinalTable b) : a = b :=
  (table_inj rfl h).1

theorem nameTable_ne_ordinalTable : s.nameTable a ≠ s.ordinalTable b := fun h =>
  absurd (table_inj (by decide) h).2 (by decide)

end Settings

namespace EnumEntry

-- What the tables of an enumeration hold.
inductive Tabulates (entry : EnumEntry) : String → Table MapKey → Prop where
  | ordinals : Tabulates entry (Settings.standard.nameTable entry.name) entry.ordinals
  | texts : Tabulates entry (Settings.standard.ordinalTable entry.name) entry.texts

theorem Tabulates.start {entry : EnumEntry} {table : String} {t : Table MapKey}
    (h : entry.Tabulates table t) : table.toList.head? = some 'z' := by
  cases h <;> simp [Settings.nameTable, Settings.ordinalTable, Settings.standard]

-- What they hold under the names that other settings give them.
inductive TabulatesUnder (settings : Settings) (entry : EnumEntry) : String → Table MapKey → Prop
    where
  | ordinals : TabulatesUnder settings entry (settings.nameTable entry.name) entry.ordinals
  | texts : TabulatesUnder settings entry (settings.ordinalTable entry.name) entry.texts

theorem Tabulates.under {entry : EnumEntry} {table : String} {t : Table MapKey}
    (h : entry.Tabulates table t) : entry.TabulatesUnder .standard table t := by
  cases h with
  | ordinals => exact .ordinals
  | texts => exact .texts

-- The constants of an enumeration, with their values.
def constants (entry : EnumEntry) : List (String × Value) :=
  (Decl.consts entry.name entry.constNames).constants

theorem mem_constants {entry : EnumEntry} {n : String} {v : Value} :
    (n, v) ∈ entry.constants ↔ ∃ i, entry.constNames[i]? = some n ∧ v = .int (Int64.ofNat i) := by
  simp only [constants, Decl.constants, List.mem_map, List.mem_zipIdx_iff_getElem?, Prod.exists,
    Prod.mk.injEq]
  grind

section

variable {p : Program} {call : CallHandler} {f : Frame} {span : Span} {m : Machine}
  {entry : EnumEntry}

-- Where the constants are defined, the literals of the tables give their entries.
theorem gives_options (count : entry.constNames.length = entry.labels.length)
    (defines : m.Defines entry.constants) (blank : ∀ x, f.get? x = none) {α β : Type}
    {R : α → β → Prop} {g : String × String → α} {g' : String × Nat → β}
    (h : ∀ label const i, Exec.eval p call f (Code.ident span const) m =
      .ok (.int (Int64.ofNat i)) m → R (g (label, const)) (g' (label, i))) :
    List.Forall₂ R (entry.options.map g) (entry.labels.zipIdx.map g') := by
  refine List.forall₂_iff_get.2 ⟨by simp [options, count], fun i hi hi' => ?_⟩
  have bound : i < entry.constNames.length := by simp [options] at hi; omega
  have global := defines _ (mem_constants.2 ⟨i, List.getElem?_eq_getElem bound, rfl⟩)
  simp only [options, List.get_eq_getElem, List.getElem_map, List.getElem_zip,
    List.getElem_zipIdx, Nat.zero_add]
  refine h _ _ _ ?_
  rw [Code.eval_variable, Exec.binding?, blank]
  change Exec.orFail _ (m.globals.get? entry.constNames[i]) m = _
  rw [global]
  rfl

end

end EnumEntry

namespace EnumTable

variable {enums : EnumTable} {entry entry' : EnumEntry} {name : String}

-- Different entries declare different names.
theorem Sound.entry_unique (sound : enums.Sound) (mem : entry ∈ enums.entries)
    (mem' : entry' ∈ enums.entries) (h : name ∈ entry.names) (h' : name ∈ entry'.names) :
    entry = entry' := by
  by_contra different
  have : Std.Symm (Function.onFun List.Disjoint EnumEntry.names) := ⟨fun _ _ h _ hx hy => h hy hx⟩
  exact (List.nodup_flatMap.1 sound.distinct).2.forall mem mem' different h h'

theorem Sound.constant_unique (sound : enums.Sound) (mem : entry ∈ enums.entries)
    (mem' : entry' ∈ enums.entries) {v w : Value} (h : (name, v) ∈ entry.constants)
    (h' : (name, w) ∈ entry'.constants) : w = v := by
  obtain ⟨i, hi, hv⟩ := EnumEntry.mem_constants.1 h
  obtain ⟨j, hj, hw⟩ := EnumEntry.mem_constants.1 h'
  obtain rfl := sound.entry_unique mem mem' (List.mem_cons_of_mem _ (List.mem_of_getElem? hi))
    (List.mem_cons_of_mem _ (List.mem_of_getElem? hj))
  have distinct : entry.constNames.Nodup :=
    ((List.nodup_flatMap.1 sound.distinct).1 entry mem).of_cons
  have bound := (List.getElem?_eq_some_iff.1 hi).1
  rw [hv, hw, (List.getElem?_inj bound distinct).1 (hi.trans hj.symm)]

theorem Sound.tabulates_unique {settings : Settings} (sound : enums.Sound)
    (mem : entry ∈ enums.entries) (mem' : entry' ∈ enums.entries) {t t' : Table MapKey}
    (h : entry.TabulatesUnder settings name t) (h' : entry'.TabulatesUnder settings name t') :
    t = t' := by
  have same (called : entry.name = entry'.name) : entry = entry' :=
    sound.entry_unique mem mem' (List.mem_cons_self ..) (called ▸ List.mem_cons_self ..)
  generalize hx : name = x at h'
  cases h <;> cases h'
  · exact same (Settings.nameTable_inj hx) ▸ rfl
  · exact absurd hx Settings.nameTable_ne_ordinalTable
  · exact absurd hx.symm Settings.nameTable_ne_ordinalTable
  · exact same (Settings.ordinalTable_inj hx) ▸ rfl

end EnumTable

namespace Catalog

variable {c : Catalog} {settings : Settings} {enums : EnumTable} {methods : List FuncDecl}
  {rounds : Nat}

-- The package variables of a program are the tables of enumerations.
theorem var_cases {x : String} {value : Expr}
    (h : .var x value ∈ (c.program settings enums methods).declarations) :
    ∃ entry, enums.get? entry.name = some entry ∧
      entry.constants ⊆ (c.program settings enums methods).declarations.flatMap Decl.constants ∧
      .var x value ∈ entry.declarations settings := by
  rcases declaration_cases h with ⟨entry, found, hd, all⟩ | ⟨_, _, hd | ⟨_, _, hd⟩⟩
  · refine ⟨entry, found, fun const hc => ?_, hd⟩
    refine List.mem_flatMap.2 ⟨.consts entry.name entry.constNames, all ?_, hc⟩
    simp [EnumEntry.declarations]
  · cases hd
  · cases hd

theorem constants_cases {n : String} {v : Value}
    (h : (n, v) ∈ (c.program settings enums methods).declarations.flatMap Decl.constants) :
    ∃ entry, enums.get? entry.name = some entry ∧ (n, v) ∈ entry.constants := by
  obtain ⟨d, mem, hv⟩ := List.mem_flatMap.1 h
  rcases declaration_cases mem with ⟨entry, found, hd, _⟩ | ⟨_, _, hd | ⟨_, _, hd⟩⟩
  · simp only [EnumEntry.declarations, List.mem_cons, List.not_mem_nil, or_false] at hd
    rcases hd with rfl | rfl | rfl | rfl | rfl
    · cases hv
    · exact ⟨entry, found, hv⟩
    all_goals cases hv
  · cases hd
    cases hv
  · cases hd
    cases hv

-- What a machine has once the declarations of a catalog are loaded: the tables of all enumerations
-- that fields have, and no variable with the name of a builtin function.
structure Loaded (c : Catalog) (enums : EnumTable) (m : Machine) : Prop where
  tables : ∀ e ∈ c.entities, ∀ info ∈ e.fields, ∀ entry, info.enum?.bind enums.get? = some entry →
    ∀ {x t}, entry.Tabulates x t → m.HoldsMap x t
  builtins : ∀ x ∈ ["len", "make", "append", "panic"], m.globals.get? x = none

-- The constants of a program that are set first all keep their values.
theorem defines_constants (sound : enums.Sound) :
    let consts := (c.program settings enums methods).declarations.flatMap Decl.constants
    Machine.Defines { globals := Table.empty.insertAll consts } consts := fun const hc => by
  have listed {entry : EnumEntry} (found : enums.get? entry.name = some entry) :
      entry ∈ enums.entries := List.mem_of_find?_eq_some found
  obtain ⟨entry, found, hv⟩ := constants_cases hc
  refine Table.get?_insertAll hc fun w hw => ?_
  obtain ⟨entry', found', hw⟩ := constants_cases hw
  exact sound.constant_unique (listed found) (listed found') hv hw

variable (c methods rounds) in
-- Under whatever names, the declared tables are loaded if no constant is called like one of them.
theorem load_declared (sound : enums.Sound)
    (count : ∀ entry ∈ enums.entries, entry.constNames.length = entry.labels.length)
    (apart : ∀ x value, .var x value ∈ (c.program settings enums methods).declarations →
      ∀ entry ∈ enums.entries, x ∉ entry.constNames) :
    ∃ m, (c.program settings enums methods).load rounds {} = .ok () m ∧
      (∀ entry ∈ enums.entries, ∀ x t, entry.TabulatesUnder settings x t →
        (∃ value, .var x value ∈ (c.program settings enums methods).declarations) →
        m.HoldsMap x t) ∧
      ∀ x, (∀ value, .var x value ∉ (c.program settings enums methods).declarations) →
        (∀ entry ∈ enums.entries, x ∉ entry.constNames) → m.globals.get? x = none := by
  let p := c.program settings enums methods
  let consts := p.declarations.flatMap Decl.constants
  let m : Machine := { globals := Table.empty.insertAll consts }
  have listed {entry : EnumEntry} (found : enums.get? entry.name = some entry) :
      entry ∈ enums.entries := List.mem_of_find?_eq_some found
  have constant {n : String} (mem : n ∈ consts.map Prod.fst) :
      ∃ entry ∈ enums.entries, n ∈ entry.constNames := by
    obtain ⟨⟨n', v⟩, hv, same⟩ := List.mem_map.1 mem
    obtain rfl : n' = n := same
    obtain ⟨entry, found, hc⟩ := constants_cases hv
    obtain ⟨i, hi, _⟩ := EnumEntry.mem_constants.1 hc
    exact ⟨entry, listed found, List.mem_of_getElem? hi⟩
  have defines : m.Defines consts := defines_constants sound
  have apart (x : String) (value : Expr) (mem : .var x value ∈ p.declarations) :
      x ∉ consts.map Prod.fst := fun hx => by
    obtain ⟨entry, mem', hc⟩ := constant hx
    exact apart x value mem entry mem' hc
  have value (x : String) (value : Expr) (mem : .var x value ∈ p.declarations) (m : Machine)
      (defines : m.Defines consts) :
      ∃ t, (∃ entry ∈ enums.entries, entry.TabulatesUnder settings x t) ∧
        Exec.eval p (p.invoke rounds Program.maxDepth) (.ofTable .empty) value m =
          .ok (.map m.maps.size) { m with maps := m.maps.push t } := by
    obtain ⟨entry, found, sub, hd⟩ := var_cases mem
    have defines : m.Defines entry.constants := fun const hc => defines const (sub hc)
    have count := count entry (listed found)
    simp only [EnumEntry.declarations, List.mem_cons, List.not_mem_nil, or_false, reduceCtorEq,
      false_or, Decl.var.injEq] at hd
    rcases hd with ⟨rfl, rfl⟩ | ⟨rfl, rfl⟩
    · refine ⟨_, ⟨entry, listed found, .ordinals⟩, Code.eval_table ?_⟩
      exact EnumEntry.gives_options count defines (fun _ => rfl) fun label const i h => ⟨rfl, h⟩
    · refine ⟨_, ⟨entry, listed found, .texts⟩, Code.eval_table ?_⟩
      exact EnumEntry.gives_options count defines (fun _ => rfl) fun label const i h => ⟨h, rfl⟩
  obtain ⟨m', run, held, others⟩ := Program.loadVariables_run
    (fun x t => ∃ entry ∈ enums.entries, entry.TabulatesUnder settings x t) value apart
    (by rintro _ _ _ ⟨_, mem, h⟩ ⟨_, mem', h'⟩; exact sound.tabulates_unique mem mem' h h') defines
  refine ⟨m', ?_, fun entry mem x t h declared => ?_, fun x other free => ?_⟩
  · rw [Program.load, Exec.bind_of_ok (Program.loadAllConstants_run _ _)]
    exact run
  · exact held x t ⟨entry, mem, h⟩ (.inl declared)
  · rw [others x other]
    refine (Table.get?_insertAll_of_not_mem fun mem => ?_).trans (Table.get?_empty x)
    obtain ⟨entry, mem', hc⟩ := constant mem
    exact free entry mem' hc

-- A table is called like the one for labels or the one for ordinals of an enumeration.
theorem table_of_var {x : String} {value : Expr}
    (h : .var x value ∈ (c.program settings enums methods).declarations) :
    ∃ entry ∈ enums.entries,
      x = settings.nameTable entry.name ∨ x = settings.ordinalTable entry.name := by
  obtain ⟨entry, found, _, hd⟩ := var_cases h
  simp only [EnumEntry.declarations, List.mem_cons, List.not_mem_nil, or_false, reduceCtorEq,
    false_or, Decl.var.injEq] at hd
  exact ⟨entry, List.mem_of_find?_eq_some found, hd.imp And.left And.left⟩

variable (c methods rounds) in
theorem load_run (sound : enums.Sound)
    (named : ∀ entry ∈ enums.entries, entry.constNames.length = entry.labels.length ∧
      ∀ const ∈ entry.constNames, Text.StartsHigh const.toList) :
    ∃ m, (c.program .standard enums methods).load rounds {} = .ok () m ∧ c.Loaded enums m := by
  let p := c.program .standard enums methods
  have low {x : String} {value : Expr} (mem : .var x value ∈ p.declarations) :
      x.toList.head? = some 'z' := by
    obtain ⟨entry, _, rfl | rfl⟩ := table_of_var mem <;>
      simp [Settings.nameTable, Settings.ordinalTable, Settings.standard]
  have apart {x : String} {c : Char} (head : x.toList.head? = some c) (lower : c.isLower = true)
      {entry : EnumEntry} (mem : entry ∈ enums.entries) : x ∉ entry.constNames := fun hx => by
    have high := (named entry mem).2 x hx c head
    simp [lower] at high
  obtain ⟨m, run, held, others⟩ := load_declared c methods rounds sound
    (fun entry mem => (named entry mem).1)
    fun x value mem entry mem' => apart (low mem) (by decide) mem'
  refine ⟨m, run, ⟨fun e he info hi entry found x t h => ?_, fun x hx => ?_⟩⟩
  · obtain ⟨_, _, found'⟩ := Option.bind_eq_some_iff.1 found
    refine held entry (List.mem_of_find?_eq_some found') x t h.under ?_
    have declared {d : Decl} (hd : d ∈ entry.declarations .standard) : d ∈ p.declarations :=
      (enum_mem_declarationsFrom _ _ [] he hi found hd).resolve_left (by simp)
    cases h with
    | ordinals => exact ⟨_, declared (.tail _ (.tail _ (.head _)))⟩
    | texts => exact ⟨_, declared (.tail _ (.tail _ (.tail _ (.head _))))⟩
  · have builtin : ∀ x ∈ ["len", "make", "append", "panic"],
        (x.toList.head?.any fun c => c.isLower && c != 'z') = true := by decide
    obtain ⟨c, head, start⟩ := (Option.any_eq_true ..).1 (builtin x hx)
    obtain ⟨lower, other⟩ : c.isLower = true ∧ c ≠ 'z' := by simpa using start
    refine others x (fun value mem => other ?_) fun entry mem => apart head lower mem
    exact Option.some.inj (Eq.trans head.symm (low mem))

end Catalog

theorem Run.shop_ok : ∃ g, (Run.ofSchema Schema.shop .standard []).result = .ok g :=
  exists_ok (by decide +kernel)

theorem Schema.shop_implicit : ∀ e ∈ Schema.shop.entities, ∀ f ∈ e.fields, ∀ spec,
    f.enumeration = some spec → spec.constNames = none := by
  have all : ∀ e ∈ Schema.shop.entities, ∀ f ∈ e.fields,
      f.enumeration.all (·.constNames = none) = true := by decide
  exact fun e he f hf spec hs => by simpa [hs] using all e he f hf

end FieldAccess
