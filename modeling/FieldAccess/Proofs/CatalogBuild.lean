import FieldAccess.Catalog.Basic
import FieldAccess.Proofs.EnumRegistration

namespace FieldAccess

theorem firstRepeated?_go_eq_none_iff {seen labels : List String} :
    firstRepeated?.go seen labels = none ↔ labels.Nodup ∧ ∀ l ∈ labels, l ∉ seen := by
  induction labels generalizing seen with
  | nil => simp [firstRepeated?.go]
  | cons l rest ih =>
    rw [firstRepeated?.go]
    split
    case isTrue h => simp [List.contains_iff_mem.1 h]
    case isFalse h =>
      rw [ih, List.nodup_cons]
      have new : l ∉ seen := by simpa using h
      grind

theorem firstRepeated?_eq_none_iff {labels : List String} :
    firstRepeated? labels = none ↔ labels.Nodup := by
  simp [firstRepeated?, firstRepeated?_go_eq_none_iff]

section

variable {schema : Schema} {settings : Settings} {entity : String} {f : Field} {c : Classification}

namespace Field

theorem classifyEnum_ok {type : TypeExpr} {spec : EnumSpec} (h : classifyEnum type spec = .ok c) :
    spec.labels ≠ [] ∧ spec.labels.Nodup ∧
      ∃ multiplicity, enumMultiplicity? type = some multiplicity ∧
        c = .enumeration multiplicity spec.typeName := by
  unfold classifyEnum at h
  split at h
  · cases h
  case h_2 multiplicity shape =>
    split at h
    · cases h
    case isFalse filled =>
      split at h
      · cases h
      case h_2 unique =>
        refine ⟨by simpa using filled, firstRepeated?_eq_none_iff.1 unique, multiplicity, shape, ?_⟩
        split at h
        · split at h
          · exact (Except.ok.inj h).symm
          · cases h
        · exact (Except.ok.inj h).symm

theorem classifyPlain_ok {type : TypeExpr} (h : classifyPlain schema settings type = .ok c) :
    (∃ getter, settings.getter? type.render = some getter ∧ c = .primitive type.render getter) ∨
      ∃ multiplicity target, relation? type = some (multiplicity, target) ∧
        c = .relation multiplicity target := by
  unfold classifyPlain at h
  split at h
  case h_1 getter hg => exact .inl ⟨getter, hg, (Except.ok.inj h).symm⟩
  case h_2 =>
    split at h
    · cases h
    case h_2 multiplicity target shape =>
      split at h
      · exact .inr ⟨multiplicity, target, shape, (Except.ok.inj h).symm⟩
      · split at h <;> cases h

end Field

-- What stands behind the classification of a field: a type with a getter, the type of a relation, or
-- an entry in the table with the labels that the field declares.
inductive FieldInfo.Backed (settings : Settings) (enums : EnumTable) (info : FieldInfo) :
    Classification → Prop where
  | primitive {type : TypeExpr} {getter : String} (parsed : TypeExpr.parse info.field.type = .ok type)
      (known : settings.getter? type.render = some getter) :
      Backed settings enums info (.primitive type.render getter)
  | relation (multiplicity : Multiplicity) (target : String) {type : TypeExpr}
      (parsed : TypeExpr.parse info.field.type = .ok type)
      (shape : Field.relation? type = some (multiplicity, target)) :
      Backed settings enums info (.relation multiplicity target)
  | enumeration {spec : EnumSpec} {entry : EnumEntry} (multiplicity : Multiplicity)
      (declared : info.field.enumeration = some spec) (filled : spec.labels ≠ [])
      (distinct : spec.labels.Nodup) (found : enums.get? entry.name = some entry)
      (labels : entry.labels = spec.labels) {type : TypeExpr}
      (parsed : TypeExpr.parse info.field.type = .ok type)
      (shape : Field.enumMultiplicity? type = some multiplicity) :
      Backed settings enums info (.enumeration multiplicity entry.name)

theorem FieldInfo.Backed.mono {enums enums' : EnumTable} {info : FieldInfo}
    (h : info.Backed settings enums c) (ext : enums.Extends enums') :
    info.Backed settings enums' c := by
  cases h with
  | primitive parsed known => exact .primitive parsed known
  | relation multiplicity target parsed shape => exact .relation multiplicity target parsed shape
  | enumeration multiplicity declared filled distinct found labels parsed shape =>
    exact .enumeration multiplicity declared filled distinct (ext.get? found) labels parsed shape

namespace Catalog

variable {enums : EnumTable} {seen : List String} {fields : List Field}

-- A table that comes about by registering enumerations of fields.
structure Registers (source : String → Field → Prop) (enums enums' : EnumTable) : Prop where
  requests : ∃ requests : List EnumRequest, enums' = requests.foldl EnumTable.handle enums ∧
    ∀ r ∈ requests, ∃ entity f spec, source entity f ∧ f.enumeration = some spec ∧
      r = .register entity f.name spec

namespace Registers

variable {source source' : String → Field → Prop} {enums' enums'' : EnumTable}

theorem refl (source : String → Field → Prop) (enums : EnumTable) : Registers source enums enums :=
  ⟨[], rfl, by simp⟩

theorem trans (h : Registers source enums enums') (h' : Registers source enums' enums'') :
    Registers source enums enums'' := by
  obtain ⟨rs, e, from_⟩ := h.requests
  obtain ⟨rs', e', from'⟩ := h'.requests
  refine ⟨rs ++ rs', by rw [e', e, List.foldl_append], fun r hr => ?_⟩
  exact (List.mem_append.1 hr).elim (from_ r) (from' r)

theorem mono (h : Registers source enums enums')
    (sub : ∀ entity f, source entity f → source' entity f) : Registers source' enums enums' := by
  obtain ⟨rs, e, from_⟩ := h.requests
  refine ⟨rs, e, fun r hr => ?_⟩
  obtain ⟨entity, f, spec, hs, rest⟩ := from_ r hr
  exact ⟨entity, f, spec, sub entity f hs, rest⟩

theorem spec (h : Registers source enums enums') (sound : enums.Sound) :
    enums'.Sound ∧ enums.Extends enums' := by
  obtain ⟨rs, e, _⟩ := h.requests
  exact e ▸ EnumTable.foldl_handle_spec sound rs

theorem owner?_eq_none (h : Registers source enums enums') {entity field : String}
    (unknown : enums.owner? entity field = none)
    (other : ∀ f, source entity f → f.name ≠ field) : enums'.owner? entity field = none := by
  obtain ⟨rs, e, from_⟩ := h.requests
  rw [e, EnumTable.owner?_foldl_eq_none_iff]
  refine ⟨unknown, fun spec hr => ?_⟩
  obtain ⟨entity', f, spec', hs, _, e⟩ := from_ _ hr
  cases e
  exact other f hs rfl

end Registers

theorem assign_enumeration {spec : EnumSpec} (declared : f.enumeration = some spec)
    (multiplicity : Multiplicity) (enum : String) :
    assign enums entity f (.enumeration multiplicity enum) =
      (.enumeration multiplicity (enums.register entity f.name spec).1.name,
        (enums.register entity f.name spec).2) := by
  simp [assign, declared]

theorem assign_registers (c : Classification) :
    Registers (fun n g => n = entity ∧ g = f) enums (assign enums entity f c).2 := by
  unfold assign
  split
  case h_1 spec declared =>
    refine ⟨[.register entity f.name spec], rfl, fun r hr => ?_⟩
    exact ⟨entity, f, spec, ⟨rfl, rfl⟩, declared, List.mem_singleton.1 hr⟩
  case h_2 => exact .refl ..

variable (schema settings entity f enums) in
theorem buildField_registers :
    Registers (fun n g => n = entity ∧ g = f) enums
      (buildField schema settings enums entity f).enums := by
  unfold buildField
  split
  · exact .refl ..
  · split
    · exact assign_registers _
    · exact .refl ..

variable (schema settings entity f enums) in
theorem buildField_field :
    (buildField schema settings enums entity f).value.entity = entity ∧
      (buildField schema settings enums entity f).value.field = f := by
  unfold buildField
  split
  · exact ⟨rfl, rfl⟩
  · split <;> exact ⟨rfl, rfl⟩

theorem classification_buildField
    (h : (buildField schema settings enums entity f).value.classification? = some c) :
    ∃ c', f.classifyFault schema settings = .ok c' ∧ c = (assign enums entity f c').1 ∧
      (buildField schema settings enums entity f).enums = (assign enums entity f c').2 := by
  unfold buildField at h ⊢
  split at h
  · cases h
  case isFalse hx =>
    rw [if_neg hx]
    rw [Field.classify] at h ⊢
    cases hc : f.classifyFault schema settings with
    | error fault => simp [hc, FieldInfo.classification?, Access.classification?] at h
    | ok c' =>
      rw [hc] at h
      exact ⟨c', rfl, (Option.some.inj h).symm, rfl⟩

variable (schema settings f) in
-- After a field, no other field of its entity owns an entry that owned none before.
theorem buildField_step (sound : enums.Sound)
    (unknown : ∀ name ∉ seen, enums.owner? entity name = none) :
    (buildField schema settings enums entity f).enums.Sound ∧ ∀ name ∉ f.name :: seen,
      (buildField schema settings enums entity f).enums.owner? entity name = none := by
  have registers := buildField_registers schema settings entity f enums
  refine ⟨(registers.spec sound).1, fun name hn => ?_⟩
  refine registers.owner?_eq_none (unknown name fun h => hn (List.mem_cons_of_mem _ h)) ?_
  rintro g ⟨_, rfl⟩ same
  exact hn (same ▸ List.mem_cons_self ..)

-- A field that is registered for the first time has the labels that it declares.
theorem buildField_backed (unknown : enums.owner? entity f.name = none)
    (h : (buildField schema settings enums entity f).value.classification? = some c) :
    (buildField schema settings enums entity f).value.Backed settings
      (buildField schema settings enums entity f).enums c := by
  obtain ⟨c', hc, e, e'⟩ := classification_buildField h
  have field := (buildField_field schema settings entity f enums).2
  generalize (buildField schema settings enums entity f).value = info at field
  rw [e', e]
  subst field
  unfold Field.classifyFault at hc
  split at hc
  · cases hc
  case h_2 type parsed =>
    split at hc
    case h_1 spec declared =>
      obtain ⟨filled, distinct, multiplicity, shape, hm⟩ := Field.classifyEnum_ok hc
      obtain ⟨entry, found, labels, _⟩ := EnumTable.entry_of_register unknown spec
      have called : entry.name = (enums.register entity info.field.name spec).1.name := by
        simpa using List.find?_some found
      rw [hm, assign_enumeration declared, ← called]
      rw [← called] at found
      exact .enumeration multiplicity declared filled distinct found labels parsed shape
    case h_2 plain =>
      rcases Field.classifyPlain_ok hc with
        ⟨getter, known, rfl⟩ | ⟨multiplicity, target, shape, rfl⟩
      · exact .primitive parsed known
      · exact .relation multiplicity target parsed shape

variable (schema settings enums entity seen fields) in
theorem buildFields_registers :
    Registers (fun n g => n = entity ∧ g ∈ fields ∧ g.name ∉ seen) enums
      (buildFields schema settings entity enums seen fields).enums := by
  induction fields generalizing enums seen with
  | nil => exact .refl ..
  | cons f rest ih =>
    rw [buildFields]
    split
    case isTrue known =>
      exact (ih ..).mono fun n g ⟨hn, hg, new⟩ => ⟨hn, List.mem_cons_of_mem _ hg, new⟩
    case isFalse new =>
      have first : Registers (fun n g => n = entity ∧ g ∈ f :: rest ∧ g.name ∉ seen) enums
          (buildField schema settings enums entity f).enums := by
        refine (buildField_registers schema settings entity f enums).mono ?_
        rintro n g ⟨rfl, rfl⟩
        exact ⟨rfl, List.mem_cons_self .., by simpa using new⟩
      refine first.trans ((ih ..).mono ?_)
      rintro n g ⟨rfl, hg, hn⟩
      exact ⟨rfl, List.mem_cons_of_mem _ hg, fun h => hn (List.mem_cons_of_mem _ h)⟩

-- What a list of built fields consists of.
structure FieldsBuilt (settings : Settings) (entity : String) (enums : EnumTable)
    (infos : List FieldInfo) : Prop where
  distinct : (infos.map (·.name)).Nodup
  entity : ∀ info ∈ infos, info.entity = entity
  backed : ∀ info ∈ infos, ∀ c, info.classification? = some c → info.Backed settings enums c

theorem FieldsBuilt.mono {enums' : EnumTable} {infos : List FieldInfo}
    (h : FieldsBuilt settings entity enums infos) (ext : enums.Extends enums') :
    FieldsBuilt settings entity enums' infos where
  distinct := h.distinct
  entity := h.entity
  backed info mem c hc := (h.backed info mem c hc).mono ext

theorem buildFields_fields :
    ∀ info ∈ (buildFields schema settings entity enums seen fields).value,
      info.field ∈ fields ∧ info.name ∉ seen := by
  induction fields generalizing enums seen with
  | nil => simp [buildFields]
  | cons f rest ih =>
    rw [buildFields]
    split
    case isTrue known =>
      exact fun info mem => (ih info mem).imp_left (List.mem_cons_of_mem _)
    case isFalse new =>
      refine List.forall_mem_cons.2 ⟨?_, fun info mem => ?_⟩
      · rw [FieldInfo.name, (buildField_field ..).2]
        exact ⟨List.mem_cons_self .., by simpa using new⟩
      · obtain ⟨hf, hn⟩ := ih info mem
        exact ⟨List.mem_cons_of_mem _ hf, fun h => hn (List.mem_cons_of_mem _ h)⟩

theorem buildFields_spec (sound : enums.Sound)
    (unknown : ∀ name ∉ seen, enums.owner? entity name = none) :
    FieldsBuilt settings entity (buildFields schema settings entity enums seen fields).enums
      (buildFields schema settings entity enums seen fields).value := by
  induction fields generalizing enums seen with
  | nil =>
    rw [buildFields]
    exact ⟨.nil, List.forall_mem_nil _, List.forall_mem_nil _⟩
  | cons f rest ih =>
    rw [buildFields]
    split
    case isTrue known => exact ih sound unknown
    case isFalse new =>
      have new : f.name ∉ seen := by simpa using new
      obtain ⟨sound', unknown'⟩ := buildField_step schema settings f sound unknown
      have later := ih sound' unknown'
      obtain ⟨_, ext⟩ := (buildFields_registers schema settings entity
        (buildField schema settings enums entity f).enums (f.name :: seen) rest).spec sound'
      obtain ⟨owner, field⟩ := buildField_field schema settings entity f enums
      refine ⟨List.nodup_cons.2 ⟨fun h => ?_, later.distinct⟩,
        List.forall_mem_cons.2 ⟨owner, later.entity⟩,
        List.forall_mem_cons.2 ⟨fun c hc => ?_, later.backed⟩⟩
      · obtain ⟨info, mem, same⟩ := List.mem_map.1 h
        refine (buildFields_fields info mem).2 ?_
        have name := congrArg Field.name field
        exact same ▸ name ▸ List.mem_cons_self ..
      · exact (buildField_backed (unknown f.name new) hc).mono ext

variable {entities : List Entity}

variable (schema settings enums seen entities) in
theorem buildEntities_registers :
    Registers (fun n g => n ∉ seen ∧ ∃ e ∈ entities, e.name = n ∧ g ∈ e.fields) enums
      (buildEntities schema settings enums seen entities).enums := by
  induction entities generalizing enums seen with
  | nil => exact .refl ..
  | cons e rest ih =>
    rw [buildEntities]
    split
    case isTrue known =>
      exact (ih ..).mono fun n g ⟨new, e', he, hg⟩ => ⟨new, e', List.mem_cons_of_mem _ he, hg⟩
    case isFalse new =>
      have first : Registers (fun n g => n ∉ seen ∧ ∃ e' ∈ e :: rest, e'.name = n ∧ g ∈ e'.fields)
          enums (buildFields schema settings e.name enums [] e.fields).enums := by
        refine (buildFields_registers schema settings e.name enums [] e.fields).mono ?_
        rintro n g ⟨rfl, hg, _⟩
        exact ⟨by simpa using new, e, List.mem_cons_self .., rfl, hg⟩
      refine first.trans ((ih ..).mono ?_)
      rintro n g ⟨hn, e', he, hg⟩
      exact ⟨fun h => hn (List.mem_cons_of_mem _ h), e', List.mem_cons_of_mem _ he, hg⟩

-- What a list of built entities consists of.
structure EntitiesBuilt (settings : Settings) (enums : EnumTable) (es : List EntityFields) :
    Prop where
  distinct : (es.map (·.name)).Nodup
  fields : ∀ e ∈ es, FieldsBuilt settings e.name enums e.fields

theorem buildEntities_entities :
    ∀ e ∈ (buildEntities schema settings enums seen entities).value,
      e.entity ∈ entities ∧ e.name ∉ seen ∧ ∀ info ∈ e.fields, info.field ∈ e.entity.fields := by
  induction entities generalizing enums seen with
  | nil => simp [buildEntities]
  | cons e rest ih =>
    rw [buildEntities]
    split
    case isTrue known =>
      exact fun e' mem => (ih e' mem).imp_left (List.mem_cons_of_mem _)
    case isFalse new =>
      have new : e.name ∉ seen := by simpa using new
      refine List.forall_mem_cons.2 ⟨⟨List.mem_cons_self .., new, fun info mem => ?_⟩,
        fun e' mem => ?_⟩
      · exact (buildFields_fields info mem).1
      · obtain ⟨he, hn, hf⟩ := ih e' mem
        exact ⟨List.mem_cons_of_mem _ he, fun h => hn (List.mem_cons_of_mem _ h), hf⟩

variable (schema settings) in
-- After an entity, the fields of no other entity own an entry that owned none before.
theorem buildFields_step (e : Entity) (sound : enums.Sound)
    (unknown : ∀ name ∉ seen, ∀ field, enums.owner? name field = none) :
    (buildFields schema settings e.name enums [] e.fields).enums.Sound ∧
      ∀ name ∉ e.name :: seen, ∀ field,
        (buildFields schema settings e.name enums [] e.fields).enums.owner? name field = none := by
  have registers := buildFields_registers schema settings e.name enums [] e.fields
  refine ⟨(registers.spec sound).1, fun name hn field => ?_⟩
  refine registers.owner?_eq_none (unknown name (fun h => hn (List.mem_cons_of_mem _ h)) field) ?_
  rintro g ⟨same, _⟩
  exact absurd (same ▸ List.mem_cons_self ..) hn

theorem buildEntities_spec (sound : enums.Sound)
    (unknown : ∀ name ∉ seen, ∀ field, enums.owner? name field = none) :
    EntitiesBuilt settings (buildEntities schema settings enums seen entities).enums
      (buildEntities schema settings enums seen entities).value := by
  induction entities generalizing enums seen with
  | nil => exact ⟨.nil, nofun⟩
  | cons e rest ih =>
    rw [buildEntities]
    split
    case isTrue known => exact ih sound unknown
    case isFalse new =>
      have new : e.name ∉ seen := by simpa using new
      obtain ⟨sound', unknown'⟩ := buildFields_step schema settings e sound unknown
      have later := ih sound' unknown'
      obtain ⟨_, ext⟩ := (buildEntities_registers schema settings
        (buildFields schema settings e.name enums [] e.fields).enums (e.name :: seen) rest).spec sound'
      have fields : FieldsBuilt settings e.name
          (buildFields schema settings e.name enums [] e.fields).enums
          (buildFields schema settings e.name enums [] e.fields).value :=
        buildFields_spec sound fun field _ => unknown e.name new field
      refine ⟨List.nodup_cons.2 ⟨fun h => ?_, later.distinct⟩,
        List.forall_mem_cons.2 ⟨fields.mono ext, later.fields⟩⟩
      obtain ⟨e', mem, same⟩ := List.mem_map.1 h
      exact (buildEntities_entities e' mem).2.1 (same ▸ List.mem_cons_self ..)

-- The table of a catalog comes about by reserving the names of all entities and then registering
-- enumerations of fields.
theorem build_requests (schema : Schema) (settings : Settings) :
    ∃ requests, (build schema settings {}).enums =
        EnumTable.after (schema.entities.map (.reserve ·.name) ++ requests) ∧
      ∀ r ∈ requests, ∃ e ∈ schema.entities, ∃ f ∈ e.fields, ∃ spec, f.enumeration = some spec ∧
        r = .register e.name f.name spec := by
  obtain ⟨requests, he, from_⟩ := (buildEntities_registers schema settings
    (schema.entities.foldl (·.reserve ·.name) {}) [] schema.entities).requests
  refine ⟨requests, ?_, fun r hr => ?_⟩
  · rw [EnumTable.after_append, EnumTable.after, List.foldl_map]
    exact he
  · obtain ⟨_, f, spec, ⟨_, e, mem, called, hf⟩, declared, hr⟩ := from_ r hr
    exact ⟨e, mem, f, hf, spec, declared, called ▸ hr⟩

theorem sound_enums_build (schema : Schema) (settings : Settings) :
    (build schema settings {}).enums.Sound := by
  obtain ⟨_, he, _⟩ := build_requests schema settings
  exact he ▸ EnumTable.sound_after _

-- Before the first registration, the names of all entities are taken and there is no entry.
theorem reserved_eq (schema : Schema) : schema.entities.foldl (·.reserve ·.name) {} =
    EnumTable.after (schema.entities.map (.reserve ·.name)) := by
  rw [EnumTable.after, List.foldl_map]
  rfl

theorem reserved_spec (schema : Schema) :
    let reserved := schema.entities.foldl (·.reserve ·.name) ({} : EnumTable)
    reserved.Sound ∧ reserved.entries = [] ∧
      ∀ entity field, reserved.owner? entity field = none := by
  intro reserved
  have eq : reserved = _ := reserved_eq schema
  refine ⟨eq ▸ EnumTable.sound_after _, ?_, fun entity field => ?_⟩
  · clear eq
    have start (t : EnumTable) :
        (schema.entities.foldl (·.reserve ·.name) t).entries = t.entries := by
      induction schema.entities generalizing t with
      | nil => rfl
      | cons e rest ih => exact ih (t.reserve e.name)
    exact start {}
  · rw [eq, EnumTable.owner?_after_eq_none_iff]
    simp

theorem build_spec (schema : Schema) (settings : Settings) :
    EntitiesBuilt settings (build schema settings {}).enums
      (build schema settings {}).value.entities := by
  obtain ⟨sound, _, unknown⟩ := reserved_spec schema
  exact buildEntities_spec sound fun name (_ : name ∉ []) field => unknown name field

theorem build_entities (schema : Schema) (settings : Settings) :
    ∀ e ∈ (build schema settings {}).value.entities,
      e.entity ∈ schema.entities ∧ ∀ info ∈ e.fields, info.field ∈ e.entity.fields :=
  fun e mem => (buildEntities_entities e mem).imp_right And.right

end Catalog

end

end FieldAccess
