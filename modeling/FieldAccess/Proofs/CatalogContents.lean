import FieldAccess.Proofs.OutputOrder
import FieldAccess.Proofs.Repetitions

namespace FieldAccess

-- Every name is that of a first element.
theorem exists_mem_firsts {α : Type} (key : α → String) {a : α} {l : List α} (mem : a ∈ l) :
    ∃ b ∈ firsts key l, key b = key a := by
  induction l with
  | nil => cases mem
  | cons first rest ih =>
    by_cases same : key first = key a
    · exact ⟨first, List.mem_cons_self .., same⟩
    · obtain ⟨b, hb, called⟩ := ih ((List.mem_cons.1 mem).resolve_left fun e => same (e ▸ rfl))
      refine ⟨b, List.mem_cons_of_mem _ (List.mem_filter.2 ⟨hb, ?_⟩), called⟩
      simpa [called] using Ne.symm same

-- Why a field is without access. There is no reason for a field that is exempt.
def Field.fault? (schema : Schema) (settings : Settings) (f : Field) : Option FieldFault :=
  if Catalog.isExempt settings f then none
  else match f.classifyFault schema settings with
  | .ok _ => none
  | .error fault => some fault

namespace Field

variable {schema : Schema} {settings : Settings} {f : Field} {c : Classification}

-- Relations refer to entities of the schema.
theorem hasEntity_of_classifyPlain {type : TypeExpr} {target : String}
    (h : classifyPlain schema settings type = .ok c) (refers : c.target? = some target) :
    schema.hasEntity target := by
  unfold classifyPlain at h
  split at h
  · cases h
    cases refers
  · split at h
    · cases h
    · split at h
      case isTrue known =>
        cases h
        cases refers
        exact known
      case isFalse => split at h <;> cases h

theorem hasEntity_of_classifyFault {target : String}
    (h : f.classifyFault schema settings = .ok c) (refers : c.target? = some target) :
    schema.hasEntity target := by
  unfold classifyFault at h
  split at h
  · cases h
  · split at h
    · obtain ⟨_, _, _, _, rfl⟩ := classifyEnum_ok h
      cases refers
    · exact hasEntity_of_classifyPlain h refers

-- An enumeration asks for one constant for each label.
theorem length_wantedConsts_of_classifyEnum {type : TypeExpr} {spec : EnumSpec}
    (h : classifyEnum type spec = .ok c) : spec.wantedConsts.length = spec.labels.length := by
  obtain ⟨filled, distinct, multiplicity, shape, _⟩ := classifyEnum_ok h
  rw [classifyEnum, shape, List.isEmpty_eq_false_iff.2 filled,
    firstRepeated?_eq_none_iff.2 distinct] at h
  rw [EnumSpec.wantedConsts]
  cases declared : spec.constNames with
  | none => rw [Option.getD_none, List.length_map]
  | some names =>
    rw [declared] at h
    by_contra uneven
    simp [if_neg (show ¬names.length = spec.labels.length from uneven)] at h

theorem length_wantedConsts_of_classifyFault {spec : EnumSpec}
    (h : f.classifyFault schema settings = .ok c) (declared : f.enumeration = some spec) :
    spec.wantedConsts.length = spec.labels.length := by
  rw [classifyFault, declared] at h
  split at h
  · cases h
  · exact length_wantedConsts_of_classifyEnum h

end Field

namespace EnumTable

variable {t : EnumTable} {spec : EnumSpec} {entry : EnumEntry} {emitted : List String}

-- Each entry has one constant for each of its labels.
def Counted (t : EnumTable) : Prop :=
  ∀ entry ∈ t.entries, entry.constNames.length = entry.labels.length

theorem Counted.register (counted : t.Counted) (entity field : String)
    (fit : spec.wantedConsts.length = spec.labels.length) :
    (t.register entity field spec).2.Counted := by
  rcases register_cases t entity field spec with
    ⟨_, _, e⟩ | ⟨_, name, _, ⟨_, _, _, _, e⟩ | ⟨_, _, _, _, e⟩⟩
  · exact e ▸ counted
  · exact e ▸ counted
  · rw [e, own, addEntry]
    dsimp only
    rw [Counted, (addConsts_spec _ _).entries]
    refine List.forall_mem_append.2 ⟨counted, List.forall_mem_singleton.2 ?_⟩
    exact (addConsts_spec _ _).count.trans fit

-- Entries are declared with fields that use them.
theorem exists_of_mem_firstUses {infos : List FieldInfo} (mem : entry ∈ t.firstUses emitted infos) :
    ∃ info ∈ infos, info.enum? = some entry.name := by
  induction infos generalizing emitted with
  | nil => cases mem
  | cons info rest ih =>
    have later {emitted : List String} (mem : entry ∈ t.firstUses emitted rest) :
        ∃ info' ∈ info :: rest, info'.enum? = some entry.name :=
      have ⟨info', mem, uses⟩ := ih mem
      ⟨info', List.mem_cons_of_mem _ mem, uses⟩
    rw [firstUses] at mem
    split at mem
    case h_1 first found =>
      split at mem
      · exact later mem
      · rcases List.mem_cons.1 mem with rfl | mem
        · obtain ⟨name, uses, found⟩ := Option.bind_eq_some_iff.1 found
          exact ⟨info, List.mem_cons_self .., name_of_get? found ▸ uses⟩
        · exact later mem
    case h_2 => exact later mem

theorem exists_of_mem_declaredWith {es : List EntityFields}
    (mem : entry ∈ t.declaredWith emitted es) :
    ∃ e ∈ es, ∃ info ∈ e.fields, info.enum? = some entry.name := by
  induction es generalizing emitted with
  | nil => cases mem
  | cons e rest ih =>
    rcases List.mem_append.1 mem with mem | mem
    · exact ⟨e, List.mem_cons_self .., exists_of_mem_firstUses mem⟩
    · obtain ⟨e', mem, uses⟩ := ih mem
      exact ⟨e', List.mem_cons_of_mem _ mem, uses⟩

end EnumTable

namespace Catalog

section

variable (schema : Schema) (settings : Settings)

-- What is wrong with a field of an entity that stands behind `earlier` ones.
def fieldReports (entity : String) : List Field × Field → List ClassificationError
  | (earlier, f) =>
    if f.name ∈ earlier.map (·.name) then [.field entity f.name f.span .duplicateField]
    else (f.fault? schema settings).toList.map (.field entity f.name f.span)

-- What is wrong with an entity that stands behind `earlier` ones. The fields of a repeated entity
-- are left out with it.
def entityReports : List Entity × Entity → List ClassificationError
  | (earlier, e) =>
    if e.name ∈ earlier.map (·.name) then [.duplicateEntity e.name e.span]
    else (withEarlier e.fields).flatMap (fieldReports schema settings e.name)

end

variable {schema : Schema} {settings : Settings} {enums : EnumTable} {entity : String} {f : Field}
  {seen : List String} {fields : List Field} {entities : List Entity}

-- What becomes of a field.
theorem buildField_cases (schema : Schema) (settings : Settings) (enums : EnumTable)
    (entity : String) (f : Field) :
    let built := buildField schema settings enums entity f
    (isExempt settings f = true ∧ f.fault? schema settings = none ∧
      built = ⟨⟨entity, f, .direct⟩, [], enums⟩) ∨
    isExempt settings f = false ∧
      ((∃ c, f.classifyFault schema settings = .ok c ∧ f.fault? schema settings = none ∧
        built = ⟨⟨entity, f, .proxied (assign enums entity f c).1⟩, [],
          (assign enums entity f c).2⟩) ∨
      ∃ fault, f.fault? schema settings = some fault ∧
        built = ⟨⟨entity, f, .unavailable⟩, [.field entity f.name f.span fault], enums⟩) := by
  rw [buildField, Field.fault?, Field.classify]
  cases exempt : isExempt settings f with
  | true => exact .inl ⟨rfl, rfl, rfl⟩
  | false =>
    refine .inr ⟨rfl, ?_⟩
    cases classified : f.classifyFault schema settings with
    | ok c => exact .inl ⟨c, rfl, rfl, rfl⟩
    | error fault => exact .inr ⟨fault, rfl, rfl⟩

variable (schema settings enums entity f) in
theorem errors_buildField :
    (buildField schema settings enums entity f).errors =
      (f.fault? schema settings).toList.map (.field entity f.name f.span) := by
  rcases buildField_cases schema settings enums entity f with
    ⟨_, clear, e⟩ | ⟨_, ⟨_, _, clear, e⟩ | ⟨_, faulty, e⟩⟩
  · rw [e, clear]
    rfl
  · rw [e, clear]
    rfl
  · rw [e, faulty]
    rfl

-- Each field is reported that is not the first of its name, or that has a fault.
theorem errors_buildFields {before : List Field}
    (same : ∀ name, name ∈ seen ↔ name ∈ before.map Field.name) :
    (buildFields schema settings entity enums seen fields).errors =
      (withEarlierAfter before fields).flatMap (fieldReports schema settings entity) := by
  induction fields generalizing enums seen before with
  | nil =>
    rw [buildFields, withEarlierAfter_nil]
    rfl
  | cons f rest ih =>
    rw [buildFields, withEarlierAfter_cons, List.flatMap_cons, fieldReports]
    simp only [List.contains_iff_mem, ← same]
    by_cases known : f.name ∈ seen
    · simp only [if_pos known, ih (seen_iff_of_known same known)]
      rfl
    · simp only [if_neg known, errors_buildField, ih (seen_iff_of_new same f)]

theorem errors_buildEntities {before : List Entity}
    (same : ∀ name, name ∈ seen ↔ name ∈ before.map Entity.name) :
    (buildEntities schema settings enums seen entities).errors =
      (withEarlierAfter before entities).flatMap (entityReports schema settings) := by
  induction entities generalizing enums seen before with
  | nil =>
    rw [buildEntities, withEarlierAfter_nil]
    rfl
  | cons e rest ih =>
    rw [buildEntities, withEarlierAfter_cons, List.flatMap_cons, entityReports, withEarlier_eq]
    simp only [List.contains_iff_mem, ← same]
    by_cases known : e.name ∈ seen
    · simp only [if_pos known, ih (seen_iff_of_known same known)]
      rfl
    · simp only [if_neg known, ih (seen_iff_of_new same e)]
      exact congrArg (· ++ _) (errors_buildFields fun _ => .rfl)

-- How a field of the catalog came about: from one of its entity, with some table.
def BuiltIn (schema : Schema) (settings : Settings) (entity : String) (info : FieldInfo) : Prop :=
  ∃ enums f, info = (buildField schema settings enums entity f).value

theorem buildFields_each :
    ∀ info ∈ (buildFields schema settings entity enums seen fields).value,
      BuiltIn schema settings entity info := by
  induction fields generalizing enums seen with
  | nil => exact List.forall_mem_nil _
  | cons f rest ih =>
    rw [buildFields]
    split
    · exact ih
    · exact List.forall_mem_cons.2 ⟨⟨enums, f, rfl⟩, ih⟩

theorem buildEntities_each :
    ∀ e ∈ (buildEntities schema settings enums seen entities).value,
      ∀ info ∈ e.fields, BuiltIn schema settings e.name info := by
  induction entities generalizing enums seen with
  | nil => exact List.forall_mem_nil _
  | cons e rest ih =>
    rw [buildEntities]
    split
    · exact ih
    · exact List.forall_mem_cons.2 ⟨buildFields_each, ih⟩

-- What every field keeps of the table, all fields keep.
theorem buildFields_keeps {P : EnumTable → Prop}
    (keeps : ∀ enums entity f, P enums → P (buildField schema settings enums entity f).enums)
    (start : P enums) : P (buildFields schema settings entity enums seen fields).enums := by
  induction fields generalizing enums seen with
  | nil => exact start
  | cons f rest ih =>
    rw [buildFields]
    split
    · exact ih start
    · exact ih (keeps enums entity f start)

theorem buildEntities_keeps {P : EnumTable → Prop}
    (keeps : ∀ enums entity f, P enums → P (buildField schema settings enums entity f).enums)
    (start : P enums) : P (buildEntities schema settings enums seen entities).enums := by
  induction entities generalizing enums seen with
  | nil => exact start
  | cons e rest ih =>
    rw [buildEntities]
    split
    · exact ih start
    · exact ih (buildFields_keeps keeps start)

theorem target?_assign (enums : EnumTable) (entity : String) (f : Field) (c : Classification) :
    (assign enums entity f c).1.target? = c.target? := by
  unfold assign
  split <;> rfl

namespace BuiltIn

variable {info : FieldInfo}

-- The access says what became of a field: exempt fields are left as they are, and those with a
-- fault are out of reach.
theorem access (built : BuiltIn schema settings entity info) :
    (info.access = .direct ↔ isExempt settings info.field) ∧
    (info.access = .unavailable ↔ (info.field.fault? schema settings).isSome) := by
  obtain ⟨enums, f, rfl⟩ := built
  rcases buildField_cases schema settings enums entity f with
    ⟨exempt, clear, e⟩ | ⟨exempt, ⟨_, _, clear, e⟩ | ⟨_, faulty, e⟩⟩
  · simp [e, exempt, clear]
  · simp [e, exempt, clear]
  · simp [e, exempt, faulty]

-- A relation refers to an entity of the schema.
theorem hasEntity_of_target {target : String} (built : BuiltIn schema settings entity info)
    (refers : info.classification?.bind (·.target?) = some target) : schema.hasEntity target := by
  obtain ⟨enums, f, rfl⟩ := built
  obtain ⟨c, classified, refers⟩ := Option.bind_eq_some_iff.1 refers
  obtain ⟨c', ok, rfl, _⟩ := classification_buildField classified
  exact Field.hasEntity_of_classifyFault ok (target?_assign .. ▸ refers)

end BuiltIn

theorem assign_counted {c : Classification} (ok : f.classifyFault schema settings = .ok c)
    (counted : enums.Counted) : (assign enums entity f c).2.Counted := by
  unfold assign
  split
  case h_1 spec declared =>
    exact counted.register entity f.name (Field.length_wantedConsts_of_classifyFault ok declared)
  case h_2 => exact counted

theorem buildField_counted (counted : enums.Counted) :
    (buildField schema settings enums entity f).enums.Counted := by
  rcases buildField_cases schema settings enums entity f with
    ⟨_, _, e⟩ | ⟨_, ⟨c, ok, _, e⟩ | ⟨_, _, e⟩⟩
  · exact e ▸ counted
  · exact e ▸ assign_counted ok counted
  · exact e ▸ counted

theorem counted_build (schema : Schema) (settings : Settings) :
    (build schema settings {}).enums.Counted := by
  refine buildEntities_keeps (fun _ _ _ => buildField_counted) ?_
  rw [EnumTable.Counted, (reserved_spec schema).2.1]
  exact List.forall_mem_nil _

theorem entities_build (schema : Schema) (settings : Settings) :
    (build schema settings {}).value.entities.map (·.entity) =
      firsts Entity.name schema.entities := by
  rw [build, entities_buildEntities]
  simp

-- No entity of the schema is missing from its catalog.
theorem hasEntity_build {name : String} (known : schema.hasEntity name) :
    (build schema settings {}).value.hasEntity name := by
  obtain ⟨e, found⟩ := Option.isSome_iff_exists.1 known
  obtain ⟨first, mem, same⟩ := exists_mem_firsts Entity.name (List.mem_of_find?_eq_some found)
  rw [← entities_build schema settings] at mem
  obtain ⟨e', mem', rfl⟩ := List.mem_map.1 mem
  have called : e.name = name := by simpa using List.find?_some found
  exact List.find?_isSome.2 ⟨e', mem', decide_eq_true (same.trans called)⟩

theorem isProxied_iff_accessors? {info : FieldInfo}
    (backed : ∀ c, info.classification? = some c → info.Backed settings enums c) :
    info.isProxied ↔ ∃ pair, info.accessors? settings = some pair := by
  constructor
  · intro proxied
    obtain ⟨c, classified⟩ := FieldInfo.isProxied_iff.1 proxied
    obtain ⟨pair, made, _⟩ := FieldInfo.accessors?_of_backed classified (backed c classified)
    exact ⟨pair, made⟩
  · rintro ⟨pair, made⟩
    by_contra direct
    rw [FieldInfo.accessors?_eq_none direct] at made
    cases made

-- The enumeration of a field has the labels that the field declares.
theorem entry_of_enum? {info : FieldInfo} {enum : String}
    (backed : ∀ c, info.classification? = some c → info.Backed settings enums c)
    (uses : info.enum? = some enum) :
    ∃ spec entry, info.field.enumeration = some spec ∧ enums.get? enum = some entry ∧
      entry.labels = spec.labels := by
  obtain ⟨c, classified, uses⟩ := Option.bind_eq_some_iff.1 uses
  cases backed c classified with
  | primitive => cases uses
  | relation => cases uses
  | enumeration multiplicity declared _ _ found labels =>
    cases uses
    exact ⟨_, _, declared, found, labels⟩

-- A catalog has the first declarations of all names, in order, and reports exactly the repeated
-- ones and the fields without access. Fields with a classification are those with accessors.
-- Relations refer to entities of the catalog, and enumerations to entries of the table that have
-- the declared labels with a constant for each. The table has no other entries.
theorem build_contents (schema : Schema) (settings : Settings) :
    let built := build schema settings {}
    built.value.entities.map (·.entity) = firsts Entity.name schema.entities ∧
    (∀ e ∈ built.value.entities,
      e.fields.map (·.field) = firsts Field.name e.entity.fields ∧
      ∀ info ∈ e.fields,
        info.entity = e.name ∧
        (info.isProxied ↔ ∃ c, info.classification? = some c) ∧
        (info.isProxied ↔ ∃ pair, info.accessors? settings = some pair) ∧
        (info.access = .direct ↔ isExempt settings info.field) ∧
        (info.access = .unavailable ↔ (info.field.fault? schema settings).isSome) ∧
        (∀ enum, info.enum? = some enum → ∃ spec entry, info.field.enumeration = some spec ∧
          built.enums.get? enum = some entry ∧ entry.labels = spec.labels ∧
          entry.constNames.length = entry.labels.length)) ∧
    built.errors = (withEarlier schema.entities).flatMap (entityReports schema settings) ∧
    (∀ e ∈ built.value.entities, ∀ target ∈ e.relationTargets, built.value.hasEntity target) ∧
    ∀ entry ∈ built.enums.entries,
      ∃ e ∈ built.value.entities, ∃ info ∈ e.fields, info.enum? = some entry.name := by
  intro built
  refine ⟨entities_build schema settings, fun e mem => ⟨fields_buildEntities _ e mem, ?_⟩, ?_,
    fun e mem target refers => ?_, fun entry mem => ?_⟩
  · intro info mem'
    have fields := (build_spec schema settings).fields e mem
    obtain ⟨direct, unavailable⟩ := (buildEntities_each e mem info mem').access
    refine ⟨fields.entity info mem', FieldInfo.isProxied_iff,
      isProxied_iff_accessors? (fields.backed info mem'), direct, unavailable, fun enum uses => ?_⟩
    obtain ⟨spec, entry, declared, found, labels⟩ := entry_of_enum? (fields.backed info mem') uses
    exact ⟨spec, entry, declared, found, labels,
      counted_build schema settings entry (List.mem_of_find?_eq_some found)⟩
  · rw [withEarlier_eq]
    exact errors_buildEntities fun _ => .rfl
  · obtain ⟨info, mem', refers⟩ := List.mem_filterMap.1 refers
    exact hasEntity_build ((buildEntities_each e mem info mem').hasEntity_of_target refers)
  · rw [← declaredWith_build] at mem
    exact EnumTable.exists_of_mem_declaredWith mem

-- A field is repeated, one refers to nothing, and an entity comes a second time.
example :
    let schema : Schema :=
      { entities := [{ name := "Order", fields := [{ name := "total", type := "int" },
          { name := "total", type := "string" }, { name := "audit", type := "*Audit" }] },
        { name := "Order", fields := [{ name := "audit", type := "*Audit" }] }] }
    (build schema .standard {}).errors =
      [.field "Order" "total" .nowhere .duplicateField,
       .field "Order" "audit" .nowhere (.unresolvedRelation "Audit"),
       .duplicateEntity "Order" .nowhere] := by
  decide +kernel

end Catalog

end FieldAccess
