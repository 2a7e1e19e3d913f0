import FieldAccess.Proofs.InsertedCalls
import FieldAccess.Proofs.PackageNames

namespace FieldAccess

-- The elements with a key that no earlier element has.
def firsts {α : Type} (key : α → String) : List α → List α
  | [] => []
  | a :: rest => a :: (firsts key rest).filter (key · ≠ key a)

-- The part of the output that belongs to one entity.
structure OutputSection where
  fields : EntityFields
  enums : List EnumEntry
  methods : List FuncDecl
  accessors : List AccessorPair

namespace OutputSection

def entity (s : OutputSection) : Entity :=
  s.fields.entity

def functions (s : OutputSection) (settings : Settings) : List FuncDecl :=
  s.methods ++ (s.entity.collectionGetter? settings).toList ++
    s.accessors.flatMap fun pair => [pair.accessor, pair.mutator]

def declarations (s : OutputSection) (settings : Settings) : List Decl :=
  s.enums.flatMap (·.declarations settings) ++
    s.entity.wrapper :: (s.functions settings).map .func

-- Whether a field of the entity has the enumeration.
def Uses (s : OutputSection) (enum : String) : Prop :=
  ∃ info ∈ s.fields.fields, info.enum? = some enum

end OutputSection

-- The functions of the output that stand for methods: they have the receiver and the name of one.
def Generated.methodsFor (g : Generated) (methods : List FuncDecl) : List FuncDecl :=
  g.functions.filter fun f => f.receiverEntity?.isSome &&
    methods.any fun m => m.receiverEntity? = f.receiverEntity? && m.name = f.name

-- The sections that make up an output with these redirected methods.
structure Generated.InOrder (g : Generated) (schema : Schema) (settings : Settings)
    (redirected : List FuncDecl) (sections : List OutputSection) : Prop where
  declarations : g.declarations = sections.flatMap (·.declarations settings)
  entities : sections.map (·.entity) = firsts Entity.name schema.entities
  fields : ∀ s ∈ sections, s.fields.fields.map (·.field) = firsts Field.name s.entity.fields
  methods : ∀ s ∈ sections, s.methods = redirected.filter (·.receiverEntity? = some s.entity.name)
  accessors : ∀ s ∈ sections, List.Forall₂
    (fun info pair => info.accessors? settings = some pair ∧
      pair.accessor.name = info.accessor ∧ pair.mutator.name = info.mutator)
    (s.fields.fields.filter (·.isProxied)) s.accessors
  enums : sections.flatMap (·.enums) = g.enums
  table : g.enums = (Catalog.build schema settings {}).enums.entries ∧ (g.enums.map (·.name)).Nodup
  uses : ∀ before s after, sections = before ++ s :: after → ∀ entry,
    entry ∈ s.enums ↔ entry ∈ g.enums ∧ s.Uses entry.name ∧ ∀ s' ∈ before, ¬s'.Uses entry.name

section

variable {α : Type} {key : α → String} {a : α} {rest : List α} {seen : List String}

theorem firsts_cons_seen (known : key a ∈ seen) :
    (firsts key (a :: rest)).filter (key · ∉ seen) = (firsts key rest).filter (key · ∉ seen) := by
  rw [firsts, List.filter_cons_of_neg (by simpa using known), List.filter_filter]
  refine List.filter_congr fun b _ => ?_
  by_cases same : key b = key a <;> simp [same, known]

theorem firsts_cons_new (new : key a ∉ seen) :
    (firsts key (a :: rest)).filter (key · ∉ seen) =
      a :: (firsts key rest).filter (key · ∉ key a :: seen) := by
  rw [firsts, List.filter_cons_of_pos (by simpa using new), List.filter_filter]
  congr 1
  refine List.filter_congr fun b _ => ?_
  simp [Bool.and_comm]

end

-- Functions taken receiver by receiver are all functions with one of the receivers.
theorem FuncDecl.flatMap_filter_perm {names : List String} {fs : List FuncDecl}
    (distinct : names.Nodup) (owned : ∀ f ∈ fs, ∃ name ∈ names, f.receiverEntity? = some name) :
    (names.flatMap fun name => fs.filter (·.receiverEntity? = some name)).Perm fs := by
  induction names generalizing fs with
  | nil =>
    obtain rfl := List.eq_nil_iff_forall_not_mem.2 fun f hf => by simpa using owned f hf
    exact .refl _
  | cons name names ih =>
    obtain ⟨new, distinct⟩ := List.nodup_cons.1 distinct
    have owned' : ∀ f ∈ fs.filter (fun f => !decide (f.receiverEntity? = some name)),
        ∃ name ∈ names, f.receiverEntity? = some name := by
      intro f hf
      obtain ⟨hf, other⟩ := List.mem_filter.1 hf
      obtain ⟨name', mem, receiver⟩ := owned f hf
      rcases List.mem_cons.1 mem with rfl | mem
      · simp [receiver] at other
      · exact ⟨name', mem, receiver⟩
    have others := ih distinct owned'
    have same : (names.flatMap fun name' => (fs.filter (fun f =>
        !decide (f.receiverEntity? = some name))).filter (·.receiverEntity? = some name')) =
          names.flatMap fun name' => fs.filter (·.receiverEntity? = some name') := by
      refine List.flatMap_congr fun name' mem => ?_
      rw [List.filter_filter]
      refine List.filter_congr fun f _ => ?_
      by_cases h : f.receiverEntity? = some name'
      · have other : name' ≠ name := fun e => new (e ▸ mem)
        simp [h, other]
      · simp [h]
    rw [same] at others
    exact (others.append_left _).trans (List.filter_append_perm ..)

namespace EnumTable

variable {t : EnumTable} {entry : EnumEntry} {emitted emitted' : List String} {info : FieldInfo}
  {rest : List FieldInfo}

theorem firstUses_skip (h : ∀ entry, info.enum?.bind t.get? = some entry → entry.name ∈ emitted) :
    t.firstUses emitted (info :: rest) = t.firstUses emitted rest := by
  rw [firstUses]
  split
  case h_1 entry found => simp [h entry found]
  case h_2 => rfl

theorem firstUses_new (found : info.enum?.bind t.get? = some entry) (new : entry.name ∉ emitted) :
    t.firstUses emitted (info :: rest) = entry :: t.firstUses (entry.name :: emitted) rest := by
  rw [firstUses, found]
  simp [new]

-- The names of entries.
def Names (t : EnumTable) (names : List String) : Prop :=
  ∀ name, name ∈ names ↔ (t.get? name).isSome

theorem get?_append {t' : EnumTable} {new : List EnumEntry} (h : t'.entries = t.entries ++ new)
    (name : String) : t'.get? name = (t.get? name).or (new.find? (·.name = name)) := by
  rw [get?, h, List.find?_append]
  rfl

theorem Names.append {t' : EnumTable} {new : List EnumEntry} (names : t.Names emitted)
    (h : t'.entries = t.entries ++ new) : t'.Names (new.map (·.name) ++ emitted) := by
  intro name
  rw [get?_append h, List.mem_append, names, Option.isSome_or, Bool.or_eq_true, or_comm]
  simp [List.find?_isSome]

end EnumTable

namespace Catalog

variable {schema : Schema} {settings : Settings} {enums table : EnumTable} {entity : String}
  {f : Field} {seen emitted : List String} {fields : List Field} {entities : List Entity}

theorem enumeration_of_classify {multiplicity : Multiplicity} {enum : String}
    (h : f.classify schema settings entity = .ok (.enumeration multiplicity enum)) :
    ∃ spec, f.enumeration = some spec := by
  unfold Field.classify Field.classifyFault at h
  split at h
  case h_2 => cases h
  case h_1 c hc =>
    obtain rfl := Except.ok.inj h
    split at hc
    · cases hc
    · split at hc
      case h_1 spec declared => exact ⟨spec, declared⟩
      case h_2 => rcases Field.classifyPlain_ok hc with ⟨_, _, h⟩ | ⟨_, _, _, h⟩ <;> cases h

variable (schema settings) in
-- What a field does to the table: it leaves the entries alone and has one of them at most, or it
-- adds the entry that it has.
theorem buildField_entries (unknown : enums.owner? entity f.name = none) :
    let first := buildField schema settings enums entity f
    (first.enums.entries = enums.entries ∧
        ∀ name, first.value.enum? = some name → (enums.get? name).isSome) ∨
      ∃ entry, first.enums.entries = enums.entries ++ [entry] ∧
        first.value.enum? = some entry.name ∧ enums.get? entry.name = none := by
  unfold buildField
  split
  · exact .inl ⟨rfl, nofun⟩
  · split
    case h_2 => exact .inl ⟨rfl, nofun⟩
    case h_1 c classified =>
      cases c with
      | primitive | relation => exact .inl ⟨rfl, nofun⟩
      | enumeration multiplicity enum =>
        obtain ⟨spec, declared⟩ := enumeration_of_classify classified
        rw [assign_enumeration declared]
        rcases EnumTable.register_cases enums entity f.name spec with
          ⟨name, known, _⟩ | ⟨_, name, _, ⟨entry, found, _, _, e⟩ | ⟨absent, free, _, rfl, e⟩⟩
        · simp [unknown] at known
        · refine .inl ⟨by rw [e]; rfl, fun name' h => ?_⟩
          rw [e] at h
          obtain rfl := Option.some.inj h
          exact Option.isSome_iff_exists.2 ⟨entry, found⟩
        · obtain ⟨entry, added⟩ := EnumTable.addEntry_adds enums free spec.labels spec.wantedConsts
          rw [e]
          exact .inr ⟨entry, added.entries, congrArg some added.called.symm, added.called ▸ absent⟩

variable (schema settings) in
-- The enumerations that fields are the first to use are those that they add to the table.
theorem firstUses_buildFields (sound : enums.Sound)
    (unknown : ∀ name ∉ seen, enums.owner? entity name = none) (names : enums.Names emitted)
    (ext : (buildFields schema settings entity enums seen fields).enums.entries <+: table.entries) :
    (buildFields schema settings entity enums seen fields).enums.entries = enums.entries ++
      table.firstUses emitted (buildFields schema settings entity enums seen fields).value := by
  induction fields generalizing enums seen emitted with
  | nil => simp [buildFields, EnumTable.firstUses]
  | cons f rest ih =>
    rw [buildFields] at ext ⊢
    split
    case isTrue known =>
      rw [if_pos known] at ext
      exact ih sound unknown names ext
    case isFalse new =>
      rw [if_neg new] at ext
      have new : f.name ∉ seen := by simpa using new
      obtain ⟨sound', unknown'⟩ := buildField_step schema settings f sound unknown
      have later := (buildFields_registers schema settings entity
        (buildField schema settings enums entity f).enums (f.name :: seen) rest).spec sound'
      have within := List.IsPrefix.trans (EnumTable.Extends.entries_prefix later.2) ext
      rcases buildField_entries schema settings (unknown f.name new) with
        ⟨same, known⟩ | ⟨entry, added, has, absent⟩
      · have names' : (buildField schema settings enums entity f).enums.Names emitted := by
          intro name
          rw [names, EnumTable.get?, EnumTable.get?, same]
        rw [ih sound' unknown' names' ext, same, EnumTable.firstUses_skip]
        intro entry found
        obtain ⟨name, has, found⟩ := Option.bind_eq_some_iff.1 found
        exact EnumTable.name_of_get? found ▸ (names name).2 (known name has)
      · have found : (buildField schema settings enums entity f).enums.get? entry.name = some entry := by
          rw [EnumTable.get?_append added, absent]
          simp
        have has' : (buildField schema settings enums entity f).value.enum?.bind table.get? =
            some entry := by
          rw [has]
          exact EnumTable.get?_of_prefix within found
        have new' : entry.name ∉ emitted := by simp [names entry.name, absent]
        rw [ih sound' unknown' (names.append added) ext, added, List.append_assoc,
          EnumTable.firstUses_new has' new']
        rfl

variable (schema settings entities) in
theorem declaredWith_buildEntities (sound : enums.Sound)
    (unknown : ∀ name ∉ seen, ∀ field, enums.owner? name field = none)
    (names : enums.Names emitted)
    (ext : (buildEntities schema settings enums seen entities).enums.entries <+: table.entries) :
    (buildEntities schema settings enums seen entities).enums.entries = enums.entries ++
      table.declaredWith emitted (buildEntities schema settings enums seen entities).value := by
  induction entities generalizing enums seen emitted with
  | nil => simp [buildEntities, EnumTable.declaredWith]
  | cons e rest ih =>
    rw [buildEntities] at ext ⊢
    split
    case isTrue known =>
      rw [if_pos known] at ext
      exact ih sound unknown names ext
    case isFalse new =>
      rw [if_neg new] at ext
      have new : e.name ∉ seen := by simpa using new
      obtain ⟨sound', unknown'⟩ := buildFields_step schema settings e sound unknown
      have later := (buildEntities_registers schema settings
        (buildFields schema settings e.name enums [] e.fields).enums (e.name :: seen) rest).spec sound'
      have first := firstUses_buildFields schema settings sound (fun field _ => unknown e.name new field)
        names (List.IsPrefix.trans (EnumTable.Extends.entries_prefix later.2) ext)
      rw [ih sound' unknown' (names.append first) ext, first, List.append_assoc]
      rfl

-- The declarations of a catalog hold the enumerations of its table, in order.
theorem declaredWith_build (schema : Schema) (settings : Settings) :
    (build schema settings {}).enums.declaredWith [] (build schema settings {}).value.entities =
      (build schema settings {}).enums.entries := by
  obtain ⟨sound, none, unknown⟩ := reserved_spec schema
  have names : (schema.entities.foldl (·.reserve ·.name) ({} : EnumTable)).Names [] := by
    simp [EnumTable.Names, EnumTable.get?, none]
  have all := declaredWith_buildEntities schema settings schema.entities sound
    (fun name (_ : name ∉ []) => unknown name) names (List.prefix_refl _)
  rw [none, List.nil_append] at all
  exact all.symm

theorem fields_buildFields (fields : List Field) :
    (buildFields schema settings entity enums seen fields).value.map (·.field) =
      (firsts Field.name fields).filter (·.name ∉ seen) := by
  induction fields generalizing enums seen with
  | nil => rfl
  | cons f rest ih =>
    rw [buildFields]
    by_cases known : f.name ∈ seen
    · rw [if_pos (List.contains_iff_mem.2 known), firsts_cons_seen known, ih]
    · rw [if_neg (by simpa using known), firsts_cons_new known, List.map_cons,
        (buildField_field ..).2, ih]

theorem entities_buildEntities (entities : List Entity) :
    (buildEntities schema settings enums seen entities).value.map (·.entity) =
      (firsts Entity.name entities).filter (·.name ∉ seen) := by
  induction entities generalizing enums seen with
  | nil => rfl
  | cons e rest ih =>
    rw [buildEntities]
    by_cases known : e.name ∈ seen
    · rw [if_pos (List.contains_iff_mem.2 known), firsts_cons_seen known, ih]
    · rw [if_neg (by simpa using known), firsts_cons_new known, List.map_cons, ih]

theorem fields_buildEntities (entities : List Entity) :
    ∀ e ∈ (buildEntities schema settings enums seen entities).value,
      e.fields.map (·.field) = firsts Field.name e.entity.fields := by
  induction entities generalizing enums seen with
  | nil => simp [buildEntities]
  | cons e rest ih =>
    rw [buildEntities]
    split
    · exact ih
    · refine List.forall_mem_cons.2 ⟨?_, ih⟩
      rw [fields_buildFields]
      simp

-- The sections of a catalog's entities; the enumerations in `emitted` stand before.
def sectionsFrom (enums : EnumTable) (settings : Settings) (methods : List FuncDecl)
    (emitted : List String) : List EntityFields → List OutputSection
  | [] => []
  | e :: rest =>
    let new := enums.firstUses emitted e.fields
    ⟨e, new, methods.filter (·.receiverEntity? = some e.name), e.accessors settings⟩ ::
      sectionsFrom enums settings methods (new.map (·.name) ++ emitted) rest

variable {methods : List FuncDecl} {es : List EntityFields}

theorem declarationsFrom_eq :
    declarationsFrom enums settings methods emitted es =
      (sectionsFrom enums settings methods emitted es).flatMap (·.declarations settings) := by
  induction es generalizing emitted with
  | nil => rfl
  | cons e rest ih =>
    rw [declarationsFrom, sectionsFrom, ih]
    rfl

theorem enums_sectionsFrom :
    (sectionsFrom enums settings methods emitted es).flatMap (·.enums) =
      enums.declaredWith emitted es := by
  induction es generalizing emitted with
  | nil => rfl
  | cons e rest ih =>
    rw [sectionsFrom, List.flatMap_cons, ih]
    rfl

theorem fields_sectionsFrom :
    (sectionsFrom enums settings methods emitted es).map (·.fields) = es := by
  induction es generalizing emitted with
  | nil => rfl
  | cons e rest ih => rw [sectionsFrom, List.map_cons, ih]

theorem entities_sectionsFrom :
    (sectionsFrom enums settings methods emitted es).map (·.entity) = es.map (·.entity) := by
  induction es generalizing emitted with
  | nil => rfl
  | cons e rest ih =>
    rw [sectionsFrom, List.map_cons, ih]
    rfl

theorem parts_of_mem_sectionsFrom {s : OutputSection}
    (h : s ∈ sectionsFrom enums settings methods emitted es) :
    s.methods = methods.filter (·.receiverEntity? = some s.entity.name) ∧
      s.accessors = s.fields.accessors settings := by
  induction es generalizing emitted with
  | nil => cases h
  | cons e rest ih =>
    rcases List.mem_cons.1 h with rfl | h
    · exact ⟨rfl, rfl⟩
    · exact ih h

theorem mem_firstUses_iff {entry : EnumEntry} {infos : List FieldInfo} :
    entry ∈ enums.firstUses emitted infos ↔ enums.get? entry.name = some entry ∧
      entry.name ∉ emitted ∧ ∃ info ∈ infos, info.enum? = some entry.name := by
  constructor
  · intro h
    refine ⟨EnumTable.get?_of_mem_firstUses h, (enums.nodup_firstUses emitted infos).2 entry h, ?_⟩
    induction infos generalizing emitted with
    | nil => cases h
    | cons info rest ih =>
      rw [EnumTable.firstUses] at h
      split at h
      case h_1 first found =>
        have later (h : ∃ info ∈ rest, info.enum? = some entry.name) :
            ∃ info' ∈ info :: rest, info'.enum? = some entry.name :=
          h.imp fun _ h => h.imp_left (List.mem_cons_of_mem _)
        split at h
        · exact later (ih h)
        · rcases List.mem_cons.1 h with rfl | h
          · obtain ⟨name, has, found⟩ := Option.bind_eq_some_iff.1 found
            exact ⟨info, List.mem_cons_self .., EnumTable.name_of_get? found ▸ has⟩
          · exact later (ih h)
      case h_2 =>
        exact (ih h).imp fun _ h => h.imp_left (List.mem_cons_of_mem _)
  · rintro ⟨found, new, info, mem, has⟩
    have found : info.enum?.bind enums.get? = some entry := by rw [has]; exact found
    exact (EnumTable.mem_firstUses emitted mem found).resolve_left new

-- An enumeration stands in the first section with a field that has it.
theorem mem_enums_sectionsFrom {before after : List OutputSection} {s : OutputSection}
    (h : sectionsFrom enums settings methods emitted es = before ++ s :: after)
    (entry : EnumEntry) :
    entry ∈ s.enums ↔ enums.get? entry.name = some entry ∧ entry.name ∉ emitted ∧
      s.Uses entry.name ∧ ∀ s' ∈ before, ¬s'.Uses entry.name := by
  induction before generalizing emitted es with
  | nil =>
    cases es with
    | nil => cases h
    | cons e rest =>
      obtain ⟨rfl, _⟩ := List.cons.inj h
      simp [mem_firstUses_iff, OutputSection.Uses]
  | cons first before ih =>
    cases es with
    | nil => cases h
    | cons e rest =>
      obtain ⟨rfl, later⟩ := List.cons.inj h
      rw [ih later, List.forall_mem_cons]
      refine and_congr_right fun found => ?_
      have same : entry.name ∈ (enums.firstUses emitted e.fields).map (·.name) ↔
          entry.name ∉ emitted ∧ ∃ info ∈ e.fields, info.enum? = some entry.name := by
        refine List.mem_map.trans ⟨?_, fun h => ⟨entry, mem_firstUses_iff.2 ⟨found, h⟩, rfl⟩⟩
        rintro ⟨entry', mem, named⟩
        exact named ▸ (mem_firstUses_iff.1 mem).2
      rw [List.mem_append, same]
      by_cases known : entry.name ∈ emitted
      · simp [known]
      · simp only [known, not_false_eq_true, true_and, or_false]
        exact and_left_comm

end Catalog

-- The accessors of a wrapper are those of its proxied fields.
theorem FieldInfo.forall₂_accessors? {settings : Settings} {enums : EnumTable}
    {infos : List FieldInfo}
    (backed : ∀ info ∈ infos, ∀ c, info.classification? = some c → info.Backed settings enums c) :
    List.Forall₂ (fun info pair => info.accessors? settings = some pair ∧
        pair.accessor.name = info.accessor ∧ pair.mutator.name = info.mutator)
      (infos.filter (·.isProxied)) (infos.filterMap (·.accessors? settings)) := by
  induction infos with
  | nil => exact .nil
  | cons info rest ih =>
    have ih := ih fun info' mem => backed info' (List.mem_cons_of_mem _ mem)
    by_cases proxied : info.isProxied
    · obtain ⟨c, classified⟩ := isProxied_iff.1 proxied
      obtain ⟨pair, made, accessor, mutator, _⟩ :=
        accessors?_of_backed classified (backed info (List.mem_cons_self ..) c classified)
      rw [List.filter_cons_of_pos proxied, List.filterMap_cons, made]
      exact .cons ⟨made, accessor, mutator⟩ ih
    · rw [List.filter_cons_of_neg proxied, List.filterMap_cons, accessors?_eq_none proxied]
      exact ih

namespace OutputSection

variable {g : Generated} {settings : Settings} {sections : List OutputSection}

-- The functions of the output are those of its sections, with a conversion for each enumeration.
theorem functions_of_declarations (h : g.declarations = sections.flatMap (·.declarations settings)) :
    g.functions = sections.flatMap fun s =>
      s.enums.map (·.sliceHelper settings) ++ s.functions settings := by
  have enums (s : OutputSection) : (s.enums.flatMap (·.declarations settings)).filterMap (·.func?) =
      s.enums.map (·.sliceHelper settings) := by
    rw [List.filterMap_flatMap, List.map_eq_flatMap]
    rfl
  have functions (s : OutputSection) :
      (s.entity.wrapper :: (s.functions settings).map .func).filterMap (·.func?) =
        s.functions settings := by
    change ((s.functions settings).map Decl.func).filterMap (·.func?) = _
    simp [List.filterMap_map, Decl.func?]
  rw [Generated.functions, h, List.filterMap_flatMap]
  refine List.flatMap_congr fun s _ => ?_
  rw [declarations, List.filterMap_append, enums, functions]

end OutputSection

namespace Run

variable {schema : Schema} {settings : Settings} {methods redirected : List FuncDecl} {g : Generated}

-- A method that is redirected, and what it becomes, have one receiver and one name.
theorem Redirects.exists_method (h : Redirects schema settings methods redirected) {f : FuncDecl}
    (mem : f ∈ redirected) : ∃ m ∈ methods, m.receiverEntity? = f.receiverEntity? ∧ m.name = f.name := by
  obtain ⟨m, hm, becomes⟩ := exists_of_forall₂ h.each.flip mem
  exact ⟨m, hm, by rw [FuncDecl.redirect_header becomes]; rfl, by rw [FuncDecl.redirect_header becomes]⟩

theorem Redirects.exists_redirected (h : Redirects schema settings methods redirected) {m : FuncDecl}
    (mem : m ∈ methods) : ∃ f ∈ redirected, m.receiverEntity? = f.receiverEntity? ∧ m.name = f.name := by
  obtain ⟨f, hf, becomes⟩ := exists_of_forall₂ h.each mem
  exact ⟨f, hf, by rw [FuncDecl.redirect_header becomes]; rfl, by rw [FuncDecl.redirect_header becomes]⟩

-- Of the functions on an entity, those called like methods are the methods.
theorem filter_functions (each : Redirects schema settings methods redirected)
    (clean : (Catalog.build schema settings {}).value.Clean settings
      (Catalog.build schema settings {}).enums redirected)
    {e : EntityFields} (he : e ∈ (Catalog.build schema settings {}).value.entities) :
    (e.functions settings redirected).filter (fun f => f.receiverEntity?.isSome &&
        methods.any fun m => m.receiverEntity? = f.receiverEntity? && m.name = f.name) =
      redirected.filter (·.receiverEntity? = some e.name) := by
  have receivers {f : FuncDecl} (hf : f ∈ e.functions settings redirected) :=
    EntityFields.receiverEntity?_of_mem_functions (clean.built.fields e he) hf
  have distinct := clean.nodup_functions he
  rw [EntityFields.functions, List.append_assoc] at receivers distinct ⊢
  rw [List.map_append, List.nodup_append'] at distinct
  have own : (redirected.filter (·.receiverEntity? = some e.name)).filter (fun f =>
        f.receiverEntity?.isSome &&
          methods.any fun m => m.receiverEntity? = f.receiverEntity? && m.name = f.name) =
      redirected.filter (·.receiverEntity? = some e.name) := by
    refine List.filter_eq_self.2 fun f hf => ?_
    obtain ⟨m, hm, receiver, name⟩ := each.exists_method (List.mem_filter.1 hf).1
    simp only [Bool.and_eq_true, List.any_eq_true, decide_eq_true_eq]
    exact ⟨by simp [receivers (List.mem_append_left _ hf)], m, hm, receiver, name⟩
  rw [List.filter_append, own, List.append_right_eq_self, List.filter_eq_nil_iff]
  intro f hf called
  simp only [Bool.and_eq_true, List.any_eq_true, decide_eq_true_eq] at called
  obtain ⟨_, m, hm, receiver, name⟩ := called
  obtain ⟨f', hf', receiver', name'⟩ := each.exists_redirected hm
  have onEntity : f'.receiverEntity? = some e.name :=
    receiver'.symm.trans (receiver.trans (receivers (List.mem_append_right _ hf)))
  have listed : f' ∈ redirected.filter (·.receiverEntity? = some e.name) :=
    List.mem_filter.2 ⟨hf', decide_eq_true onEntity⟩
  exact distinct.2.2 (List.mem_map_of_mem (f := (·.name)) listed)
    (name' ▸ name ▸ List.mem_map_of_mem (f := (·.name)) hf)

-- What a run that succeeds gives is in order.
theorem exists_sections
    (clean : (Catalog.build schema settings {}).value.Clean settings
      (Catalog.build schema settings {}).enums redirected) :
    ∃ sections, Generated.InOrder
      ⟨(Catalog.build schema settings {}).value.declarations (Catalog.build schema settings {}).enums
        settings redirected, (Catalog.build schema settings {}).enums.entries⟩
      schema settings redirected sections := by
  let built := Catalog.build schema settings {}
  have unique := (Catalog.sound_enums_build schema settings).distinct
  refine ⟨Catalog.sectionsFrom built.enums settings redirected [] built.value.entities, ?_⟩
  have parts {s : OutputSection} (hs : s ∈ Catalog.sectionsFrom built.enums settings redirected []
      built.value.entities) : s.fields ∈ built.value.entities := by
    have mem := List.mem_map_of_mem (f := (·.fields)) hs
    rwa [Catalog.fields_sectionsFrom] at mem
  refine ⟨Catalog.declarationsFrom_eq, ?_, fun s hs => ?_, fun s hs => ?_,
    fun s hs => ?_, ?_, ⟨rfl, ?_⟩, fun before s after split entry => ?_⟩
  · refine Catalog.entities_sectionsFrom.trans
      ((Catalog.entities_buildEntities schema.entities).trans ?_)
    simp
  · exact Catalog.fields_buildEntities schema.entities s.fields (parts hs)
  · exact (Catalog.parts_of_mem_sectionsFrom hs).1
  · rw [(Catalog.parts_of_mem_sectionsFrom hs).2]
    exact FieldInfo.forall₂_accessors? (clean.built.fields s.fields (parts hs)).backed
  · exact Catalog.enums_sectionsFrom.trans (Catalog.declaredWith_build schema settings)
  · exact EnumTable.nodup_entryNames unique
  · rw [Catalog.mem_enums_sectionsFrom split, EnumTable.get?_eq_some_iff unique]
    simp

-- The functions that stand for methods are those that are redirected, if they have a receiver.
theorem methodsFor_perm (each : Redirects schema settings methods redirected)
    (clean : (Catalog.build schema settings {}).value.Clean settings
      (Catalog.build schema settings {}).enums redirected) :
    (Generated.methodsFor
      ⟨(Catalog.build schema settings {}).value.declarations (Catalog.build schema settings {}).enums
        settings redirected, (Catalog.build schema settings {}).enums.entries⟩ methods).Perm
      (redirected.filter (·.receiverEntity?.isSome)) := by
  let built := Catalog.build schema settings {}
  let sections := Catalog.sectionsFrom built.enums settings redirected [] built.value.entities
  have entities : sections.map (·.fields) = built.value.entities := Catalog.fields_sectionsFrom
  -- The helpers of enumerations have no receiver, so that only wrappers have functions for methods.
  have own (s : OutputSection) (hs : s ∈ sections) :
      (s.enums.map (·.sliceHelper settings) ++ s.functions settings).filter (fun f =>
        f.receiverEntity?.isSome &&
          methods.any fun m => m.receiverEntity? = f.receiverEntity? && m.name = f.name) =
        redirected.filter (·.receiverEntity? = some s.fields.name) := by
    obtain ⟨methods_, accessors⟩ := Catalog.parts_of_mem_sectionsFrom hs
    have same : s.functions settings = s.fields.functions settings redirected := by
      rw [OutputSection.functions, methods_, accessors]
      rfl
    have helpers : (s.enums.map (·.sliceHelper settings)).filter (fun f =>
        f.receiverEntity?.isSome &&
          methods.any fun m => m.receiverEntity? = f.receiverEntity? && m.name = f.name) = [] := by
      refine List.filter_eq_nil_iff.2 fun f hf => ?_
      obtain ⟨entry, _, rfl⟩ := List.mem_map.1 hf
      exact Bool.false_ne_true
    rw [List.filter_append, helpers, same, List.nil_append]
    exact filter_functions each clean (entities ▸ List.mem_map_of_mem hs)
  have functions : Generated.methodsFor ⟨built.value.declarations built.enums settings redirected,
      built.enums.entries⟩ methods = (built.value.entities.map (·.name)).flatMap fun name =>
        (redirected.filter (·.receiverEntity?.isSome)).filter (·.receiverEntity? = some name) := by
    have names : built.value.entities.map (·.name) = sections.map fun s => s.fields.name := by
      rw [← entities, List.map_map]
      rfl
    rw [Generated.methodsFor, OutputSection.functions_of_declarations Catalog.declarationsFrom_eq,
      List.filter_flatMap, names, List.flatMap_map]
    refine List.flatMap_congr fun s hs => (own s hs).trans ?_
    rw [List.filter_filter]
    refine List.filter_congr fun f _ => ?_
    by_cases h : f.receiverEntity? = some s.fields.name <;> simp [h]
  rw [functions]
  refine FuncDecl.flatMap_filter_perm clean.built.distinct fun f hf => ?_
  obtain ⟨hf, receiver⟩ := List.mem_filter.1 hf
  obtain ⟨entity, receiver⟩ := Option.isSome_iff_exists.1 receiver
  obtain ⟨m, _, redirects⟩ := exists_of_forall₂ each.each.flip hf
  obtain ⟨e, he, rfl⟩ := FuncDecl.exists_entity_of_redirect redirects receiver
  exact ⟨e.name, List.mem_map_of_mem he, receiver⟩

-- What a run that succeeds gives is in order, and has every method with a receiver once. A function
-- without a receiver passes for a method of an entity with the empty name; where no entity is
-- called so, all methods are there.
theorem output_in_order (h : (ofSchema schema settings methods).result = .ok g) :
    ∃ redirected sections, Redirects schema settings methods redirected ∧
      g.InOrder schema settings redirected sections ∧
      (g.methodsFor methods).Perm (redirected.filter (·.receiverEntity?.isSome)) ∧
      ((∀ e ∈ schema.entities, e.name ≠ "") → (g.methodsFor methods).Perm redirected) := by
  obtain ⟨redirected, each, _, clean, rfl⟩ := redirects_of_ok h
  obtain ⟨sections, inOrder⟩ := exists_sections clean
  have perm := methodsFor_perm each clean
  refine ⟨redirected, sections, each, inOrder, perm, fun named => ?_⟩
  have all : ∀ f ∈ redirected, f.receiverEntity?.isSome := by
    intro f hf
    by_contra none
    obtain ⟨m, _, redirects⟩ := exists_of_forall₂ each.each.flip hf
    obtain ⟨e, he, anonymous⟩ := FuncDecl.exists_receiver_of_redirect redirects
    rw [Option.not_isSome_iff_eq_none.1 none, Option.getD_none] at anonymous
    exact named e.entity (Catalog.buildEntities_entities e he).1 anonymous
  rwa [List.filter_eq_self.2 all] at perm

-- The method `func (c *Counter) Read() int { return c.value }`.
def counterRead : FuncDecl where
  doc := none
  receiver := some ⟨"c", .pointer (.named "Counter")⟩
  name := "Read"
  typeParams := []
  params := []
  results := [.int]
  body := .mk .nowhere [.ret .nowhere [.select .nowhere (.ident .nowhere "c") "value"]]
  span := .nowhere

-- The output for a counter with a method that reads it is one section, with the method in front of
-- the accessors.
theorem output_in_order_counter :
    ∃ g redirected sections, (ofSchema .counter .standard [counterRead]).result = .ok g ∧
      Redirects .counter .standard [counterRead] redirected ∧
      g.InOrder .counter .standard redirected sections ∧
      (g.methodsFor [counterRead]).Perm redirected ∧
      redirected.length = 1 ∧ sections.length = 1 := by
  let built := Catalog.build .counter .standard {}
  have scope : counterRead.redirectScope built.value ⟨[counterRead]⟩ =
      .ok ⟨built.value, ["Counter"]⟩ :=
    FuncDecl.redirectScope_isolated (e := built.value.entities.head (by decide)) rfl
      (by decide +kernel) (by decide)
  have becomes : ∃ f, counterRead.redirect built.value ⟨[counterRead]⟩ .standard = .ok f := by
    rw [FuncDecl.redirect_eq, scope]
    exact exists_ok (by decide +kernel)
  obtain ⟨f, becomes⟩ := becomes
  have each : Redirects .counter .standard [counterRead] [f] := congrArg (· :: []) becomes
  have apart : Namespace.allCollisions Settings.standard.reserved
      (built.value.entities.map (Namespace.ofEntity · [counterRead])) = [] := by decide +kernel
  have ran := result_of_redirects each fun strict => by cases strict
  rw [if_pos apart] at ran
  obtain ⟨redirected, sections, each', inOrder, _, all⟩ := output_in_order ran
  have entities := congrArg List.length inOrder.entities
  rw [List.length_map] at entities
  exact ⟨_, redirected, sections, ran, each', inOrder, all (by decide),
    each'.each.length_eq.symm, entities⟩

-- A function without a receiver is lost if an entity has the empty name.
theorem method_lost_without_receiver :
    let anonymous : Schema := ⟨[{ name := "", fields := [{ name := "total", type := "int" }] }]⟩
    let f : FuncDecl := ⟨none, none, "F", [], [], [.int],
      ⟨.nowhere, [.ret .nowhere [.literal .nowhere (.int 1)]]⟩, .nowhere⟩
    ∃ g, (ofSchema anonymous .standard [f]).result = .ok g ∧ ∀ f' ∈ g.functions, f'.name ≠ "F" := by
  intro anonymous f
  let built := Catalog.build anonymous .standard {}
  have scope : f.redirectScope built.value ⟨[f]⟩ = .ok ⟨built.value, [""]⟩ :=
    FuncDecl.redirectScope_isolated (e := built.value.entities.head (by decide)) rfl
      (by decide +kernel) (by decide)
  have becomes : f.redirect built.value ⟨[f]⟩ .standard = .ok f := by
    rw [FuncDecl.redirect_eq, scope]
    rfl
  have each : Redirects anonymous .standard [f] [f] := congrArg (· :: []) becomes
  have apart : Namespace.allCollisions Settings.standard.reserved
      (built.value.entities.map (Namespace.ofEntity · [f])) = [] := by decide +kernel
  have ran := result_of_redirects each fun strict => by cases strict
  rw [if_pos apart] at ran
  exact ⟨_, ran, by decide +kernel⟩

end Run

end FieldAccess
