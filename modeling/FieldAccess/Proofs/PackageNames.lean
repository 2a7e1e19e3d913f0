import FieldAccess.Proofs.Loading
import FieldAccess.Schema.Samples

namespace FieldAccess

namespace Decl

-- The names of types and of constants.
def namesOfTypes : Decl → List String
  | .defined name _ | .struct name _ => [name]
  | .consts _ names => names
  | .func _ | .var _ _ => []

-- The names of variables, and of the functions that are no methods.
def namesOfHelpers : Decl → List String
  | .var name _ => [name]
  | .func f => if f.receiver.isNone then [f.name] else []
  | .defined _ _ | .struct _ _ | .consts _ _ => []

def packageNames (d : Decl) : List String :=
  d.namesOfTypes ++ d.namesOfHelpers

-- The functions among declarations that belong to an entity.
def functionsOn (entity : String) (ds : List Decl) : List FuncDecl :=
  (ds.filterMap (·.func?)).filter (·.receiverEntity? = some entity)

-- The functions that belong to the same entity have different names, and neither they nor the
-- wrappers are called like something that is reserved.
structure ApartOnWrappers (reserved : List String) (ds : List Decl) : Prop where
  distinct : ∀ entity, ((functionsOn entity ds).map (·.name)).Nodup
  functions : ∀ entity, ∀ f ∈ functionsOn entity ds, f.name ∉ reserved
  wrappers : ∀ name fields, .struct name fields ∈ ds → name ∉ reserved

section

variable {entity : String} {ds ds' : List Decl} {fs : List FuncDecl}

theorem functionsOn_append :
    functionsOn entity (ds ++ ds') = functionsOn entity ds ++ functionsOn entity ds' := by
  simp [functionsOn]

theorem functionsOn_eq_nil (h : ∀ d ∈ ds, ∀ f, d.func? = some f → f.receiverEntity? ≠ some entity) :
    functionsOn entity ds = [] := by
  rw [functionsOn, List.filter_eq_nil_iff]
  intro f mem
  obtain ⟨d, hd, hf⟩ := List.mem_filterMap.1 mem
  simpa using h d hd f hf

theorem functionsOn_functions :
    functionsOn entity (fs.map .func) = fs.filter (·.receiverEntity? = some entity) := by
  simp [functionsOn, List.filterMap_map, func?]

end

end Decl

namespace Settings

variable {s : Settings} {a b name : String}

-- What is declared for an enumeration beside its type and its constants.
def helpers (s : Settings) (enum : String) : List String :=
  [s.nameTable enum, s.ordinalTable enum, s.sliceHelper enum]

theorem sliceHelper_inj (h : s.sliceHelper a = s.sliceHelper b) : a = b :=
  (table_inj rfl h).1

-- The names of both tables end in the same letter, and the name of the conversion does not.
theorem getLast?_append_toList (lead suffix : String) (filled : suffix.toList ≠ []) :
    (lead ++ suffix).toList.getLast? = suffix.toList.getLast? := by
  rw [String.toList_append, List.getLast?_append_of_ne_nil _ filled]

theorem table_ne_sliceHelper {table : String} (h : table = s.nameTable a ∨ table = s.ordinalTable a) :
    table ≠ s.sliceHelper b := fun same => by
  have last : table.toList.getLast? = some 'p' := by
    rcases h with rfl | rfl <;> exact getLast?_append_toList _ _ (by decide)
  rw [same, sliceHelper, getLast?_append_toList _ _ (by decide)] at last
  exact absurd last (by decide)

theorem nodup_helpers (s : Settings) (enum : String) : (s.helpers enum).Nodup := by
  simp [helpers, nameTable_ne_ordinalTable, table_ne_sliceHelper (.inl rfl),
    table_ne_sliceHelper (.inr rfl)]

-- A helper tells its enumeration.
theorem helpers_inj (ha : name ∈ s.helpers a) (hb : name ∈ s.helpers b) : a = b := by
  simp only [helpers, List.mem_cons, List.not_mem_nil, or_false] at ha hb
  rcases ha with rfl | rfl | rfl <;> rcases hb with h | h | h
  · exact nameTable_inj h
  · exact absurd h nameTable_ne_ordinalTable
  · exact absurd h (table_ne_sliceHelper (.inl rfl))
  · exact absurd h.symm nameTable_ne_ordinalTable
  · exact ordinalTable_inj h
  · exact absurd h (table_ne_sliceHelper (.inr rfl))
  · exact absurd h.symm (table_ne_sliceHelper (.inl rfl))
  · exact absurd h.symm (table_ne_sliceHelper (.inr rfl))
  · exact sliceHelper_inj h

end Settings

namespace EnumTable

variable {t : EnumTable} {entry : EnumEntry} {emitted : List String} {infos : List FieldInfo}
  {es : List EntityFields}

variable (t emitted infos) in
theorem nodup_firstUses :
    ((t.firstUses emitted infos).map (·.name)).Nodup ∧
      ∀ entry ∈ t.firstUses emitted infos, entry.name ∉ emitted := by
  induction infos generalizing emitted with
  | nil => exact ⟨.nil, nofun⟩
  | cons info rest ih =>
    rw [firstUses]
    split
    case h_1 first _ =>
      split
      case isTrue => exact ih emitted
      case isFalse new =>
        obtain ⟨distinct, later⟩ := ih (first.name :: emitted)
        refine ⟨List.nodup_cons.2 ⟨fun h => ?_, distinct⟩,
          List.forall_mem_cons.2 ⟨by simpa using new, ?_⟩⟩
        · obtain ⟨entry, mem, same⟩ := List.mem_map.1 h
          exact later entry mem (same ▸ List.mem_cons_self ..)
        · exact fun entry mem known => later entry mem (List.mem_cons_of_mem _ known)
    case h_2 => exact ih emitted

-- The enumerations that are declared with entities.
def declaredWith (t : EnumTable) (emitted : List String) : List EntityFields → List EnumEntry
  | [] => []
  | e :: rest =>
    let new := t.firstUses emitted e.fields
    new ++ t.declaredWith (new.map (·.name) ++ emitted) rest

variable (t emitted es) in
theorem nodup_declaredWith :
    ((t.declaredWith emitted es).map (·.name)).Nodup ∧
      ∀ entry ∈ t.declaredWith emitted es, entry.name ∉ emitted := by
  induction es generalizing emitted with
  | nil => exact ⟨.nil, nofun⟩
  | cons e rest ih =>
    obtain ⟨first, new⟩ := nodup_firstUses t emitted e.fields
    obtain ⟨second, later⟩ := ih ((t.firstUses emitted e.fields).map (·.name) ++ emitted)
    simp only [declaredWith, List.map_append]
    refine ⟨first.append second fun name h h' => ?_, fun entry mem => ?_⟩
    · obtain ⟨entry, mem, rfl⟩ := List.mem_map.1 h'
      exact later entry mem (List.mem_append_left _ h)
    · rcases List.mem_append.1 mem with mem | mem
      · exact new entry mem
      · exact fun known => later entry mem (List.mem_append_right _ known)

theorem get?_of_mem_declaredWith (h : entry ∈ t.declaredWith emitted es) :
    t.get? entry.name = some entry := by
  induction es generalizing emitted with
  | nil => cases h
  | cons e rest ih => exact (List.mem_append.1 h).elim get?_of_mem_firstUses ih

end EnumTable

-- The declarations of an enumeration belong to no entity.
theorem EnumEntry.functionsOn_declarations {settings : Settings} {entity : String}
    (entries : List EnumEntry) :
    Decl.functionsOn entity (entries.flatMap (·.declarations settings)) = [] := by
  refine Decl.functionsOn_eq_nil fun d hd f hf => ?_
  obtain ⟨entry, _, hd⟩ := List.mem_flatMap.1 hd
  simp only [EnumEntry.declarations, List.mem_cons, List.not_mem_nil, or_false] at hd
  rcases hd with rfl | rfl | rfl | rfl | rfl
  case inr.inr.inr.inr =>
    obtain rfl := Option.some.inj hf
    exact (Option.some_ne_none _).symm
  all_goals cases hf

namespace Catalog

variable {settings : Settings} {enums : EnumTable} {methods : List FuncDecl}
  {emitted : List String} {es : List EntityFields} {c : Catalog} {entity : String}

variable (methods emitted) in
-- What is listed of all declarations but methods is what is listed of enumerations and of wrappers.
theorem flatMap_declarationsFrom {α : Type} (names : Decl → List α)
    (methodless : ∀ f : FuncDecl, f.receiver.isSome → names (.func f) = [])
    (built : ∀ e ∈ es, FieldsBuilt settings e.name enums e.fields) :
    ((declarationsFrom enums settings methods emitted es).flatMap names).Perm
      ((enums.declaredWith emitted es).flatMap
          (fun entry => (entry.declarations settings).flatMap names) ++
        es.flatMap fun e => names e.entity.wrapper) := by
  induction es generalizing emitted with
  | nil => exact .refl _
  | cons e rest ih =>
    have functions : ((e.functions settings methods).map .func).flatMap names = [] := by
      simp only [List.flatMap_eq_nil_iff, List.mem_map]
      rintro _ ⟨f, hf, rfl⟩
      have receiver := EntityFields.receiverEntity?_of_mem_functions (built e (List.mem_cons_self ..)) hf
      refine methodless f ?_
      obtain ⟨p, hp, _⟩ := Option.bind_eq_some_iff.1 receiver
      exact Option.isSome_iff_exists.2 ⟨p, hp⟩
    have later := ih ((enums.firstUses emitted e.fields).map (·.name) ++ emitted)
      fun e' he => built e' (List.mem_cons_of_mem _ he)
    simp only [declarationsFrom, EnumTable.declaredWith, List.flatMap_append, List.flatMap_cons,
      functions, List.append_nil, List.flatMap_assoc]
    refine (later.append_left _).trans ?_
    simp only [List.append_assoc]
    refine List.Perm.append_left _ ?_
    simp only [← List.append_assoc]
    exact List.perm_append_comm.append_right _

theorem namesOfTypes_declarations (built : EntitiesBuilt settings enums c.entities) :
    ((c.declarations enums settings methods).flatMap Decl.namesOfTypes).Perm
      ((enums.declaredWith [] c.entities).flatMap (·.names) ++ c.entities.map (·.name)) := by
  have all := flatMap_declarationsFrom methods [] Decl.namesOfTypes
    (fun _ _ => rfl) built.fields
  simpa [declarations, EnumEntry.declarations, Decl.namesOfTypes, EnumEntry.names, Entity.wrapper,
    EntityFields.name, ← List.map_eq_flatMap] using all

theorem namesOfHelpers_declarations (built : EntitiesBuilt settings enums c.entities) :
    ((c.declarations enums settings methods).flatMap Decl.namesOfHelpers).Perm
      ((enums.declaredWith [] c.entities).flatMap (settings.helpers ·.name)) := by
  have all := flatMap_declarationsFrom methods [] Decl.namesOfHelpers
    (fun f hf => by simp [Decl.namesOfHelpers, Option.isSome_iff_ne_none.1 hf]) built.fields
  have wrappers : (c.entities.flatMap fun e => Decl.namesOfHelpers e.entity.wrapper) = [] :=
    List.flatMap_eq_nil_iff.2 fun _ _ => rfl
  rw [wrappers, List.append_nil] at all
  exact all

-- The functions of an entity are those of the wrappers under its name.
theorem functionsOn_declarationsFrom
    (built : ∀ e ∈ es, FieldsBuilt settings e.name enums e.fields) :
    Decl.functionsOn entity (declarationsFrom enums settings methods emitted es) =
      (es.filter (·.name = entity)).flatMap (·.functions settings methods) := by
  induction es generalizing emitted with
  | nil => rfl
  | cons e rest ih =>
    have own : Decl.functionsOn entity (e.entity.wrapper :: (e.functions settings methods).map .func) =
        if e.name = entity then e.functions settings methods else [] := by
      change Decl.functionsOn entity ((e.functions settings methods).map .func) = _
      have receivers {f : FuncDecl} (hf : f ∈ e.functions settings methods) :=
        EntityFields.receiverEntity?_of_mem_functions (built e (List.mem_cons_self ..)) hf
      rw [Decl.functionsOn_functions]
      split
      case isTrue same =>
        exact List.filter_eq_self.2 fun f hf => by simp [receivers hf, same]
      case isFalse other =>
        exact List.filter_eq_nil_iff.2 fun f hf => by simp [receivers hf, other]
    rw [declarationsFrom, Decl.functionsOn_append, Decl.functionsOn_append,
      EnumEntry.functionsOn_declarations, own, ih fun e' he => built e' (List.mem_cons_of_mem _ he)]
    by_cases same : e.name = entity <;> simp [same]

theorem struct_mem_declarations_iff {name : String} {fields : List StructField} :
    .struct name fields ∈ c.declarations enums settings methods ↔
      ∃ e ∈ c.entities, .struct name fields = e.entity.wrapper := by
  constructor
  · intro h
    rcases declaration_cases h with ⟨_, _, hd, _⟩ | ⟨e, he, hd | ⟨_, _, hd⟩⟩
    · simp [EnumEntry.declarations] at hd
    · exact ⟨e, he, hd⟩
    · cases hd
  · rintro ⟨e, he, hd⟩
    rw [hd]
    exact wrapper_mem_declarationsFrom he

-- Nothing is called like an entity of the schema.
theorem name_not_mem_enumNames (schema : Schema) (settings : Settings) {e : EntityFields}
    (he : e ∈ (build schema settings {}).value.entities) :
    e.name ∉ (build schema settings {}).enums.names := by
  obtain ⟨requests, built, _⟩ := build_requests schema settings
  have start : (EnumTable.after (schema.entities.map (.reserve ·.name))).entries = [] :=
    reserved_eq schema ▸ (reserved_spec schema).2.1
  have fresh := EnumTable.fresh_of_mem_drop
    (EnumTable.extends_after (schema.entities.map (.reserve ·.name)) requests)
  rw [start, ← built] at fresh
  intro h
  obtain ⟨entry, mem, hn⟩ := List.mem_flatMap.1 h
  refine fresh entry mem e.name hn (EnumTable.mem_taken_of_reserved (List.mem_map.2 ⟨e.entity, ?_, rfl⟩))
  exact (build_entities schema settings e he).1

section

variable (built : EntitiesBuilt settings enums c.entities)

include built

variable (methods) in
-- Types and constants have names of their own.
theorem nodup_namesOfTypes (sound : enums.Sound) (apart : ∀ e ∈ c.entities, e.name ∉ enums.names) :
    ((c.declarations enums settings methods).flatMap Decl.namesOfTypes).Nodup := by
  rw [(namesOfTypes_declarations built).nodup_iff]
  have listed {entry : EnumEntry} (h : entry ∈ enums.declaredWith [] c.entities) :
      entry ∈ enums.entries := List.mem_of_find?_eq_some (EnumTable.get?_of_mem_declaredWith h)
  have different := (enums.nodup_declaredWith [] c.entities).1.of_map
  refine List.Nodup.append (List.nodup_flatMap.2 ⟨fun entry mem => ?_, ?_⟩) built.distinct ?_
  · exact (List.nodup_flatMap.1 sound.distinct).1 entry (listed mem)
  · refine different.imp_of_mem fun mem mem' other name h h' => other ?_
    exact sound.entry_unique (listed mem) (listed mem') h h'
  · intro name h h'
    obtain ⟨entry, mem, hn⟩ := List.mem_flatMap.1 h
    obtain ⟨e, he, rfl⟩ := List.mem_map.1 h'
    exact apart e he (List.mem_flatMap.2 ⟨entry, listed mem, hn⟩)

variable (methods) in
-- So do the tables and the conversions of enumerations.
theorem nodup_namesOfHelpers :
    ((c.declarations enums settings methods).flatMap Decl.namesOfHelpers).Nodup := by
  rw [(namesOfHelpers_declarations built).nodup_iff]
  have different := (enums.nodup_declaredWith [] c.entities).1
  refine List.nodup_flatMap.2 ⟨fun entry _ => settings.nodup_helpers entry.name, ?_⟩
  exact (List.pairwise_map.1 different).imp fun other name h h' => other (Settings.helpers_inj h h')

theorem defined_mem_declarations_iff {enum : String} :
    .defined enum .int ∈ c.declarations enums settings methods ↔
      ∃ entry ∈ enums.declaredWith [] c.entities, entry.name = enum := by
  let other (d : Decl) : List Decl := if d.func?.isSome then [] else [d]
  have all := (flatMap_declarationsFrom methods [] other
    (fun _ _ => rfl) built.fields).mem_iff (a := .defined enum .int)
  have kept (ds : List Decl) : .defined enum .int ∈ ds.flatMap other ↔ .defined enum .int ∈ ds := by
    refine List.mem_flatMap.trans ⟨?_, fun h => ⟨_, h, List.mem_singleton_self _⟩⟩
    rintro ⟨d, hd, h⟩
    simp only [other] at h
    split at h
    · cases h
    · exact List.mem_singleton.1 h ▸ hd
  rw [declarations, ← kept, all]
  simp [other, EnumEntry.declarations, Entity.wrapper, Decl.func?, eq_comm (a := enum)]

theorem mem_namesOfHelpers_iff {name : String} :
    name ∈ (c.declarations enums settings methods).flatMap Decl.namesOfHelpers ↔
      ∃ enum, .defined enum .int ∈ c.declarations enums settings methods ∧
        name ∈ settings.helpers enum := by
  simp only [(namesOfHelpers_declarations built).mem_iff, List.mem_flatMap,
    defined_mem_declarations_iff built]
  constructor
  · rintro ⟨entry, mem, hn⟩
    exact ⟨entry.name, ⟨entry, mem, rfl⟩, hn⟩
  · rintro ⟨_, ⟨entry, mem, rfl⟩, hn⟩
    exact ⟨entry, mem, hn⟩

theorem functionsOn_of_mem {e : EntityFields} (he : e ∈ c.entities) :
    Decl.functionsOn e.name (c.declarations enums settings methods) =
      e.functions settings methods := by
  have alone : c.entities.filter (·.name = e.name) = [e] := by
    refine List.perm_singleton.1 ((List.perm_ext_iff_of_nodup
      (built.distinct.of_map.filter _) (List.nodup_singleton e)).2 fun e' => ?_)
    have unique : e' ∈ c.entities → e'.name = e.name → e' = e :=
      fun he' same => List.inj_on_of_nodup_map built.distinct he' he same
    simp only [List.mem_filter, decide_eq_true_eq, List.mem_singleton]
    exact ⟨fun h => unique h.1 h.2, by rintro rfl; exact ⟨he, rfl⟩⟩
  rw [declarations, functionsOn_declarationsFrom built.fields, alone]
  simp

theorem mem_functionsOn_iff {f : FuncDecl} :
    f ∈ Decl.functionsOn entity (c.declarations enums settings methods) ↔
      ∃ e ∈ c.entities, e.name = entity ∧ f ∈ e.functions settings methods := by
  simp [declarations, functionsOn_declarationsFrom built.fields, and_assoc]

-- The names in declarations are apart if no wrapper has collisions.
theorem apartOnWrappers_iff :
    Decl.ApartOnWrappers settings.reserved (c.declarations enums settings methods) ↔
      ∀ e ∈ c.entities, (Namespace.ofEntity e methods).collisions settings.reserved = [] := by
  constructor
  · rintro ⟨distinct, functions, wrappers⟩ e he
    have names := e.names_functions methods (built.fields e he)
    refine Namespace.collisions_eq_nil_iff.2 ⟨?_, fun m hm => ?_, ?_⟩
    · exact wrappers _ _ (struct_mem_declarations_iff.2 ⟨e, he, rfl⟩)
    · obtain ⟨f, hf, called⟩ := List.mem_map.1
        (names.mem_iff.2 (List.mem_map_of_mem (f := (·.name)) hm))
      exact called ▸ functions e.name f ((mem_functionsOn_iff built).2 ⟨e, he, rfl, hf⟩)
    · have apart := distinct e.name
      rw [functionsOn_of_mem built he] at apart
      exact names.nodup_iff.1 apart
  · intro none
    have clean : c.Clean settings enums methods := ⟨built, none⟩
    refine ⟨fun entity => ?_, fun entity f hf => ?_, fun name fields hd => ?_⟩
    · by_cases known : ∃ e ∈ c.entities, e.name = entity
      · obtain ⟨e, he, rfl⟩ := known
        rw [functionsOn_of_mem built he]
        exact clean.nodup_functions he
      · have nothing : Decl.functionsOn entity (c.declarations enums settings methods) = [] :=
          List.eq_nil_iff_forall_not_mem.2 fun f hf =>
            have ⟨e, he, same, _⟩ := (mem_functionsOn_iff built).1 hf
            known ⟨e, he, same⟩
        simp [nothing]
    · obtain ⟨e, he, _, hf⟩ := (mem_functionsOn_iff built).1 hf
      exact clean.not_reserved he hf
    · obtain ⟨e, he, hd⟩ := struct_mem_declarations_iff.1 hd
      cases hd
      exact (Namespace.collisions_eq_nil_iff.1 (none e he)).1

end

end Catalog

namespace Run

-- Beside methods, what a run declares has names of its own unless a type or a constant is called like
-- a table or a conversion of some enumeration.
theorem package_names_apart_iff {schema : Schema} {settings : Settings} {methods : List FuncDecl}
    {g : Generated} (h : (ofSchema schema settings methods).result = .ok g) :
    (g.declarations.flatMap Decl.packageNames).Nodup ↔
      ∀ enum, .defined enum .int ∈ g.declarations → ∀ name ∈ settings.helpers enum,
        name ∉ g.declarations.flatMap Decl.namesOfTypes := by
  obtain ⟨redirected, _, _, clean, rfl⟩ := redirects_of_ok h
  have types := Catalog.nodup_namesOfTypes redirected clean.built
    (Catalog.sound_enums_build schema settings)
    fun e he => Catalog.name_not_mem_enumNames schema settings he
  have helpers := Catalog.nodup_namesOfHelpers redirected clean.built
  have parts := List.flatMap_append_perm ((Catalog.build schema settings {}).value.declarations
    (Catalog.build schema settings {}).enums settings redirected) Decl.namesOfTypes Decl.namesOfHelpers
  change (List.flatMap (fun d : Decl => d.namesOfTypes ++ d.namesOfHelpers) _).Nodup ↔ _
  rw [← parts.nodup_iff, List.nodup_append', and_iff_right types, and_iff_right helpers]
  constructor
  · intro apart enum declared name hn ht
    exact apart ht ((Catalog.mem_namesOfHelpers_iff clean.built).2 ⟨enum, declared, hn⟩)
  · intro apart name ht hn
    obtain ⟨enum, declared, hn⟩ := (Catalog.mem_namesOfHelpers_iff clean.built).1 hn
    exact apart enum declared name hn ht

-- The names of the shop are apart. A constant that is declared under the name of the table of its
-- enumeration is given that name all the same.
theorem package_names_apart_shop_and_not_with_constant :
    let schema : Schema := ⟨[
      { name := "Order"
        fields := [
          { name := "status", type := "int"
            enumeration :=
              some ⟨"Status", ["new", "paid"], some ["zzStatusSelectNameMap", "Paid"]⟩ }] }]⟩
    (∃ g, (ofSchema .shop .standard []).result = .ok g ∧
      (g.declarations.flatMap Decl.packageNames).Nodup) ∧
    ∃ g, (ofSchema schema .standard []).result = .ok g ∧
      ¬(g.declarations.flatMap Decl.packageNames).Nodup := by
  intro schema
  constructor
  · obtain ⟨g, h⟩ := shop_ok
    refine ⟨g, h, (package_names_apart_iff h).2 fun enum declared => ?_⟩
    obtain ⟨clean, gives, _⟩ := ofSchema_ok h
    have same : g.declarations = _ := congrArg Program.declarations gives
    rw [same] at declared ⊢
    obtain ⟨entry, mem, rfl⟩ := (Catalog.defined_mem_declarations_iff clean.built).1 declared
    clear declared
    revert entry
    decide +kernel
  · obtain ⟨g, h⟩ := exists_ok (show (ofSchema schema .standard []).result.isOk by decide +kernel)
    refine ⟨g, h, fun apart => ?_⟩
    obtain ⟨clean, gives, _⟩ := ofSchema_ok h
    have same : g.declarations = _ := congrArg Program.declarations gives
    have other := (package_names_apart_iff h).1 apart "Status"
    rw [same] at other
    refine other ((Catalog.defined_mem_declarations_iff clean.built).2 ?_) "zzStatusSelectNameMap" ?_ ?_
    all_goals decide +kernel

-- A run that succeeds keeps the names on wrappers apart. Where all methods are redirected and no
-- error of the classification is fatal, a run reports collisions exactly if the names in what it
-- would give are not apart.
theorem wrapper_names_apart (schema : Schema) (settings : Settings) (methods : List FuncDecl) :
    (∀ g, (ofSchema schema settings methods).result = .ok g →
      Decl.ApartOnWrappers settings.reserved g.declarations) ∧
    ∀ redirected, Redirects schema settings methods redirected →
      (settings.strict = true → (Catalog.build schema settings {}).errors = []) →
      ((∃ found, (ofSchema schema settings methods).result = .error (.collisions found)) ↔
        ¬Decl.ApartOnWrappers settings.reserved
          ((Catalog.build schema settings {}).value.declarations
            (Catalog.build schema settings {}).enums settings redirected)) := by
  have built := Catalog.build_spec schema settings
  refine ⟨fun g h => ?_, fun redirected each mild => ?_⟩
  · obtain ⟨redirected, _, _, clean, rfl⟩ := redirects_of_ok h
    exact (Catalog.apartOnWrappers_iff built).2 clean.apart
  · have found_iff : Namespace.allCollisions settings.reserved
          ((Catalog.build schema settings {}).value.entities.map (Namespace.ofEntity · methods)) = [] ↔
        Decl.ApartOnWrappers settings.reserved ((Catalog.build schema settings {}).value.declarations
          (Catalog.build schema settings {}).enums settings redirected) := by
      rw [Namespace.allCollisions_eq_nil_iff, List.forall_mem_map, Catalog.apartOnWrappers_iff built]
      exact forall₂_congr fun e _ => (each.collisions e).symm
    rw [result_of_redirects each mild, ← found_iff]
    dsimp only
    split <;> simp_all

-- Orders have clear names. A method `Value` on counters has the name of an accessor.
theorem wrapper_names_apart_counter :
    let value : FuncDecl :=
      ⟨none, some ⟨"c", .pointer (.named "Counter")⟩, "Value", [], [], [.int], ⟨.nowhere, []⟩, .nowhere⟩
    (∃ g, (ofSchema .shop .standard []).result = .ok g ∧
      Decl.ApartOnWrappers Settings.standard.reserved g.declarations) ∧
    ∃ redirected, Redirects .counter .standard [value] redirected ∧
      ∃ found, (ofSchema .counter .standard [value]).result = .error (.collisions found) := by
  intro value
  refine ⟨?_, ?_⟩
  · obtain ⟨g, h⟩ := shop_ok
    exact ⟨g, h, (wrapper_names_apart .shop .standard []).1 g h⟩
  · have each : Redirects .counter .standard [value] [value] := rfl
    refine ⟨_, each, ((wrapper_names_apart .counter .standard [value]).2 _ each nofun).2 fun apart => ?_⟩
    have twice := apart.distinct "Counter"
    exact absurd twice (by decide +kernel)

end Run

end FieldAccess
