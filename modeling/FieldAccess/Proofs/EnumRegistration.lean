import FieldAccess.Catalog.Enumeration
import FieldAccess.Proofs.FreshNames

namespace FieldAccess

namespace Naming

-- A longer sequence of candidates starts with the shorter one.
theorem candidates_prefix (base : String) {m n : Nat} (h : m ≤ n) :
    candidates base m <+: candidates base n := by
  obtain ⟨k, rfl⟩ := Nat.exists_eq_add_of_le h
  refine ⟨(List.range' (2 + m) k).map (base ++ toString ·), ?_⟩
  rw [candidates, candidates, List.cons_append, ← List.map_append]
  have range := @List.range'_append 2 m k 1
  rw [Nat.one_mul] at range
  rw [range]

theorem unique_eq_self {base : String} {taken : List String} :
    unique base taken = base ↔ base ∉ taken := by
  constructor
  · intro h
    exact h ▸ unique_not_mem base taken
  · intro h
    simp [unique, candidates, h]

end Naming

namespace EnumEntry

-- The names that an entry declares: its own and those of its constants.
def names (e : EnumEntry) : List String :=
  e.name :: e.constNames

theorem sameOptions_iff {e : EnumEntry} {labels constNames : List String} :
    e.sameOptions labels constNames = true ↔ e.labels = labels ∧ e.constNames = constNames := by
  simp [sameOptions]

end EnumEntry

namespace EnumTable

variable {t t' : EnumTable} {entry : EnumEntry} {name entity field : String} {spec : EnumSpec}
  {labels constNames : List String}

def names (t : EnumTable) : List String :=
  t.entries.flatMap (·.names)

-- Entries differ already in their names.
theorem nodup_entryNames (distinct : t.names.Nodup) : (t.entries.map (·.name)).Nodup := by
  refine distinct.sublist ?_
  rw [names]
  generalize t.entries = entries
  induction entries with
  | nil => exact .refl _
  | cons e rest ih => exact .cons_cons _ (ih.trans (List.sublist_append_right ..))

theorem get?_eq_some_iff (distinct : t.names.Nodup) :
    t.get? name = some entry ↔ entry ∈ t.entries ∧ entry.name = name := by
  constructor
  · intro h
    exact ⟨List.mem_of_find?_eq_some h, by simpa using List.find?_some h⟩
  · rintro ⟨mem, rfl⟩
    obtain ⟨found, hf⟩ := Option.isSome_iff_exists.1
      (List.find?_isSome.2 ⟨entry, mem, decide_eq_true rfl⟩ : (t.get? entry.name).isSome)
    have same : found.name = entry.name := by simpa using List.find?_some hf
    have mem' := List.mem_of_find?_eq_some hf
    obtain rfl := List.inj_on_of_nodup_map (nodup_entryNames distinct) mem' mem same
    exact hf

theorem get?_eq_none_iff : t.get? name = none ↔ ∀ entry ∈ t.entries, entry.name ≠ name := by
  simp [get?]

-- An entry is found in any table that has more entries.
theorem get?_of_prefix (h : t.entries <+: t'.entries) (found : t.get? name = some entry) :
    t'.get? name = some entry := by
  obtain ⟨new, h⟩ := h
  rw [get?, ← h, List.find?_append, show t.entries.find? _ = some entry from found]
  rfl

-- What the constants become, and what that does to the table.
structure NamesConsts (t : EnumTable) (wanted assigned : List String) (t' : EnumTable) : Prop where
  entries : t'.entries = t.entries
  owners : t'.owners = t.owners
  taken : ∀ name, name ∈ t'.taken ↔ name ∈ assigned ∨ name ∈ t.taken
  free : ∀ name ∈ assigned, name ∉ t.taken
  distinct : assigned.Nodup
  count : assigned.length = wanted.length
  kept : assigned = wanted ↔ wanted.Nodup ∧ ∀ name ∈ wanted, name ∉ t.taken

theorem addConsts_spec (t : EnumTable) (wanted : List String) :
    t.NamesConsts wanted (t.addConsts wanted).1 (t.addConsts wanted).2 := by
  induction wanted generalizing t with
  | nil => exact ⟨rfl, rfl, by simp [addConsts], by simp [addConsts], .nil, rfl, by simp [addConsts]⟩
  | cons name rest ih =>
    rw [addConsts]
    generalize ha : Naming.unique name t.taken = assigned
    generalize hr : (if assigned = name then [] else [(name, assigned)]) = renamed
    have free : assigned ∉ t.taken := ha ▸ Naming.unique_not_mem _ _
    have self : assigned = name ↔ name ∉ t.taken := ha ▸ Naming.unique_eq_self
    have later := ih { t with taken := assigned :: t.taken,
                              renamedConsts := t.renamedConsts ++ renamed }
    refine ⟨later.entries, later.owners, fun n => ?_, ?_, ?_, ?_, ?_⟩
    · rw [later.taken]
      simp only [List.mem_cons]
      grind
    · refine List.forall_mem_cons.2 ⟨free, fun n hn => ?_⟩
      exact fun h => later.free n hn (List.mem_cons_of_mem _ h)
    · exact List.nodup_cons.2 ⟨fun h => later.free _ h (List.mem_cons_self ..), later.distinct⟩
    · simp only [List.length_cons, later.count]
    · simp only [List.cons.injEq, self, later.kept, List.nodup_cons, List.mem_cons]
      grind

-- One of the candidates admits the options: there are more of them than names in the table.
theorem find?_candidates (t : EnumTable) (requested : String) (labels constNames : List String)
    {count : Nat} (enough : t.entries.length + t.taken.length ≤ count) :
    (Naming.candidates requested count).find? (t.admits labels constNames) =
      some (t.assignedName requested labels constNames) := by
  obtain ⟨name, mem, free⟩ :=
    Naming.exists_candidate requested (t.entries.map (·.name) ++ t.taken)
  rw [List.length_append, List.length_map] at mem
  have admitted : t.admits labels constNames name = true := by
    simp only [List.mem_append, List.mem_map, not_or, not_exists, not_and] at free
    rw [admits, get?_eq_none_iff.2 free.1]
    simpa using free.2
  obtain ⟨found, hf⟩ := Option.isSome_iff_exists.1 (List.find?_isSome.2 ⟨name, mem, admitted⟩)
  obtain ⟨more, candidates⟩ := Naming.candidates_prefix requested enough
  rw [← candidates, List.find?_append, assignedName, hf]
  rfl

theorem admits_assignedName (t : EnumTable) (requested : String) (labels constNames : List String) :
    t.admits labels constNames (t.assignedName requested labels constNames) = true :=
  List.find?_some (t.find?_candidates requested labels constNames (Nat.le_refl _))

-- Makes a field the owner of an entry.
def own (t : EnumTable) (entity field name : String) : EnumTable :=
  { t with owners := ((entity, field), name) :: t.owners }

theorem owner?_own (t : EnumTable) (entity field name entity' field' : String) :
    (t.own entity field name).owner? entity' field' =
      if entity' = entity ∧ field' = field then some name else t.owner? entity' field' := by
  simp only [owner?, own, List.lookup_cons]
  by_cases same : (entity', field') = (entity, field)
  · simp_all
  · simp_all [beq_eq_false_iff_ne.2 same]

-- What a registration can do: nothing, or it makes the field the owner of an entry that is there, or
-- of a new one.
theorem register_cases (t : EnumTable) (entity field : String) (spec : EnumSpec) :
    (∃ name, t.owner? entity field = some name ∧
      t.register entity field spec = (.shared name, t)) ∨
    t.owner? entity field = none ∧
    ∃ name, name = t.assignedName spec.typeName spec.labels spec.wantedConsts ∧
      ((∃ entry, t.get? name = some entry ∧ entry.labels = spec.labels ∧
          entry.constNames = spec.wantedConsts ∧
          t.register entity field spec = (.shared name, t.own entity field name)) ∨
        t.get? name = none ∧ name ∉ t.taken ∧ ∃ registration : Registration,
          registration.name = name ∧
          t.register entity field spec = (registration,
            (t.addEntry name spec.labels spec.wantedConsts).own entity field name)) := by
  rw [register]
  cases owner : t.owner? entity field with
  | some name => exact .inl ⟨name, rfl, rfl⟩
  | none =>
    refine .inr ⟨rfl, _, rfl, ?_⟩
    have admitted := admits_assignedName t spec.typeName spec.labels spec.wantedConsts
    dsimp only
    generalize t.assignedName spec.typeName spec.labels spec.wantedConsts = name at admitted ⊢
    rw [admits] at admitted
    cases found : t.get? name with
    | some entry =>
      rw [found] at admitted
      obtain ⟨labels, consts⟩ := EnumEntry.sameOptions_iff.1 admitted
      exact .inl ⟨entry, rfl, labels, consts, rfl⟩
    | none =>
      rw [found] at admitted
      refine .inr ⟨rfl, by simpa using admitted,
        if name = spec.typeName then .new name else .renamed spec.typeName name, ?_, rfl⟩
      split <;> rfl

-- No name is there twice, all names are taken, and what a field owns is there.
structure Sound (t : EnumTable) : Prop where
  distinct : t.names.Nodup
  taken : ∀ name ∈ t.names, name ∈ t.taken
  owned : ∀ {entity field name}, t.owner? entity field = some name → (t.get? name).isSome

theorem Sound.empty : ({} : EnumTable).Sound :=
  ⟨.nil, by simp [names], nofun⟩

-- What was there before is there as it was. No entry that came since has a name that was taken.
structure Extends (t t' : EnumTable) : Prop where
  entries : ∃ new, t'.entries = t.entries ++ new ∧
    ∀ entry ∈ new, ∀ name ∈ entry.names, name ∉ t.taken
  taken : ∀ name ∈ t.taken, name ∈ t'.taken
  owners : ∀ {entity field name}, t.owner? entity field = some name →
    t'.owner? entity field = some name

namespace Extends

theorem refl (t : EnumTable) : t.Extends t :=
  ⟨⟨[], by simp⟩, fun _ h => h, fun h => h⟩

theorem trans {t'' : EnumTable} (h : t.Extends t') (h' : t'.Extends t'') : t.Extends t'' where
  entries := by
    obtain ⟨new, e, fresh⟩ := h.entries
    obtain ⟨new', e', fresh'⟩ := h'.entries
    refine ⟨new ++ new', by rw [e', e, List.append_assoc], fun entry mem n hn taken => ?_⟩
    rcases List.mem_append.1 mem with mem | mem
    · exact fresh entry mem n hn taken
    · exact fresh' entry mem n hn (h.taken n taken)
  taken n hn := h'.taken n (h.taken n hn)
  owners ho := h'.owners (h.owners ho)

theorem entries_prefix (h : t.Extends t') : t.entries <+: t'.entries :=
  have ⟨new, e, _⟩ := h.entries
  ⟨new, e.symm⟩

theorem get? (h : t.Extends t') (found : t.get? name = some entry) : t'.get? name = some entry :=
  get?_of_prefix h.entries_prefix found

-- A name that was taken without being that of an entry never becomes one.
theorem get?_eq_none (h : t.Extends t') (absent : t.get? name = none) (taken : name ∈ t.taken) :
    t'.get? name = none := by
  obtain ⟨new, e, fresh⟩ := h.entries
  rw [get?_eq_none_iff] at absent ⊢
  intro entry mem same
  rw [e] at mem
  rcases List.mem_append.1 mem with mem | mem
  · exact absent entry mem same
  · exact fresh entry mem name (same ▸ List.mem_cons_self ..) taken

end Extends

theorem reserve_spec (h : t.Sound) (name : String) :
    (t.reserve name).Sound ∧ t.Extends (t.reserve name) :=
  ⟨⟨h.distinct, fun n hn => List.mem_cons_of_mem _ (h.taken n hn), h.owned⟩,
    ⟨⟨[], by simp [reserve]⟩, fun _ hn => List.mem_cons_of_mem _ hn, fun ho => ho⟩⟩

theorem own_spec (h : t.Sound) (unknown : t.owner? entity field = none)
    (found : t.get? name = some entry) :
    (t.own entity field name).Sound ∧ t.Extends (t.own entity field name) := by
  refine ⟨⟨h.distinct, h.taken, fun ho => ?_⟩, ⟨⟨[], by simp [own]⟩, fun _ hn => hn, fun ho => ?_⟩⟩
  · rw [owner?_own] at ho
    split at ho
    · obtain rfl := Option.some.inj ho
      exact Option.isSome_iff_exists.2 ⟨entry, found⟩
    · exact h.owned ho
  · rw [owner?_own, if_neg]
    · exact ho
    · rintro ⟨rfl, rfl⟩
      simp [unknown] at ho

-- A new entry at the end, whose names are taken from then on.
structure Adds (t : EnumTable) (name : String) (labels wanted : List String) (entry : EnumEntry)
    (t' : EnumTable) : Prop where
  called : entry.name = name
  labels : entry.labels = labels
  entries : t'.entries = t.entries ++ [entry]
  owners : t'.owners = t.owners
  taken : ∀ n, n ∈ t'.taken ↔ n ∈ entry.names ∨ n ∈ t.taken
  fresh : ∀ n ∈ entry.names, n ∉ t.taken
  distinct : entry.names.Nodup
  kept : entry.constNames = wanted ↔
    wanted.Nodup ∧ ∀ const ∈ wanted, const ≠ name ∧ const ∉ t.taken

theorem addEntry_adds (t : EnumTable) {name : String} (free : name ∉ t.taken)
    (labels wanted : List String) :
    ∃ entry, t.Adds name labels wanted entry (t.addEntry name labels wanted) := by
  have added := addConsts_spec { t with taken := name :: t.taken } wanted
  rw [addEntry]
  generalize { t with taken := name :: t.taken }.addConsts wanted = named at added ⊢
  obtain ⟨consts, t'⟩ := named
  refine ⟨⟨name, labels, consts⟩, rfl, rfl, ?_, added.owners, fun n => ?_, ?_, ?_, ?_⟩
  · exact congrArg (· ++ _) added.entries
  · simp only [added.taken, List.mem_cons, EnumEntry.names]
    grind
  · exact List.forall_mem_cons.2 ⟨free, fun n hn ht => added.free n hn (List.mem_cons_of_mem _ ht)⟩
  · exact List.nodup_cons.2 ⟨fun hc => added.free _ hc (List.mem_cons_self ..), added.distinct⟩
  · simpa using added.kept

namespace Adds

variable (h : t.Adds name labels constNames entry t')

include h

theorem ext : t.Extends t' where
  entries := ⟨[entry], h.entries, by simpa using h.fresh⟩
  taken n hn := (h.taken n).2 (.inr hn)
  owners ho := by
    rw [owner?, h.owners]
    exact ho

theorem get? (absent : t.get? name = none) : t'.get? name = some entry := by
  rw [EnumTable.get?, h.entries, List.find?_append, show t.entries.find? _ = none from absent]
  simp [h.called]

theorem sound (old : t.Sound) : t'.Sound := by
  have names : t'.names = t.names ++ entry.names := by simp [EnumTable.names, h.entries]
  refine ⟨?_, fun n hn => ?_, fun {entity field name'} ho => ?_⟩
  · rw [names]
    exact old.distinct.append h.distinct fun n hn hn' => h.fresh n hn' (old.taken n hn)
  · rw [names] at hn
    rw [h.taken]
    exact (List.mem_append.1 hn).symm.imp_right (old.taken n)
  · rw [owner?, h.owners] at ho
    obtain ⟨e, he⟩ := Option.isSome_iff_exists.1 (old.owned ho)
    exact Option.isSome_iff_exists.2 ⟨e, h.ext.get? he⟩

end Adds

theorem owner?_of_owners_eq (h : t'.owners = t.owners) (entity field : String) :
    t'.owner? entity field = t.owner? entity field := by
  rw [owner?, h, owner?]

-- A registration makes the field own the entry that it answers, and no other field.
theorem owner?_register (t : EnumTable) (entity field : String) (spec : EnumSpec)
    (entity' field' : String) :
    (t.register entity field spec).2.owner? entity' field' =
      if entity' = entity ∧ field' = field then some (t.register entity field spec).1.name
      else t.owner? entity' field' := by
  rcases register_cases t entity field spec with
    ⟨name, known, e⟩ | ⟨_, name, _, ⟨_, _, _, _, e⟩ | ⟨_, free, _, rfl, e⟩⟩
  · rw [e]
    split
    case isTrue same => exact same.1 ▸ same.2 ▸ known
    case isFalse => rfl
  · rw [e]
    exact owner?_own ..
  · obtain ⟨_, added⟩ := addEntry_adds t free spec.labels spec.wantedConsts
    rw [e, owner?_own, owner?_of_owners_eq added.owners]

theorem register_spec (h : t.Sound) (entity field : String) (spec : EnumSpec) :
    (t.register entity field spec).2.Sound ∧ t.Extends (t.register entity field spec).2 := by
  rcases register_cases t entity field spec with
    ⟨name, known, e⟩ | ⟨unknown, name, _, ⟨entry, found, labels, _, e⟩ |
      ⟨absent, free, registration, _, e⟩⟩
  · rw [e]
    exact ⟨h, .refl t⟩
  · rw [e]
    exact own_spec h unknown found
  · rw [e]
    obtain ⟨entry, added⟩ := addEntry_adds t free spec.labels spec.wantedConsts
    have unknown' := (owner?_of_owners_eq added.owners entity field).trans unknown
    obtain ⟨sound, ext⟩ := own_spec (added.sound h) unknown' (added.get? absent)
    exact ⟨sound, added.ext.trans ext⟩

-- A field that is registered first gets the assigned name, and a new entry only if there is none.
theorem register_name (unknown : t.owner? entity field = none) (spec : EnumSpec) :
    (t.register entity field spec).1.name =
      t.assignedName spec.typeName spec.labels spec.wantedConsts := by
  rcases register_cases t entity field spec with
    ⟨_, known, _⟩ | ⟨_, _, assigned, ⟨_, _, _, _, e⟩ | ⟨_, _, _, called, e⟩⟩
  · simp [unknown] at known
  · rw [e, ← assigned]
    rfl
  · rw [e, ← assigned, called]

theorem register_entries (spec : EnumSpec)
    (found : t.get? (t.register entity field spec).1.name = some entry) :
    (t.register entity field spec).2.entries = t.entries := by
  rcases register_cases t entity field spec with
    ⟨_, _, e⟩ | ⟨_, _, _, ⟨_, _, _, _, e⟩ | ⟨absent, _, _, rfl, e⟩⟩
  · rw [e]
  · rw [e]
    rfl
  · rw [e, absent] at found
    cases found

-- The entry that a field gets when it is registered first.
theorem entry_of_register (unknown : t.owner? entity field = none) (spec : EnumSpec) :
    ∃ entry, (t.register entity field spec).2.get? (t.register entity field spec).1.name =
        some entry ∧
      entry.labels = spec.labels ∧
      (entry.constNames = spec.wantedConsts ↔
        (t.get? (t.register entity field spec).1.name).isSome ∨
        spec.wantedConsts.Nodup ∧ ∀ const ∈ spec.wantedConsts,
          const ≠ (t.register entity field spec).1.name ∧ const ∉ t.taken) := by
  rcases register_cases t entity field spec with
    ⟨name, known, _⟩ | ⟨_, name, _, ⟨entry, found, labels, consts, e⟩ |
      ⟨absent, free, registration, rfl, e⟩⟩
  · simp [unknown] at known
  · rw [e]
    refine ⟨entry, found, labels, fun _ => .inl ?_, fun _ => consts⟩
    exact Option.isSome_iff_exists.2 ⟨entry, found⟩
  · rw [e]
    obtain ⟨entry, added⟩ := addEntry_adds t free spec.labels spec.wantedConsts
    refine ⟨entry, added.get? absent, added.labels, ?_⟩
    rw [added.kept, absent]
    simp

end EnumTable

-- What a table is asked for.
inductive EnumRequest where
  | reserve (name : String)
  | register (entity field : String) (spec : EnumSpec)

namespace EnumTable

variable {t t' : EnumTable} {name entity field : String} {spec : EnumSpec}
  {requests pre post : List EnumRequest}

def handle (t : EnumTable) : EnumRequest → EnumTable
  | .reserve name => t.reserve name
  | .register entity field spec => (t.register entity field spec).2

-- The table after a sequence of requests.
def after (requests : List EnumRequest) : EnumTable :=
  requests.foldl handle {}

theorem handle_spec (h : t.Sound) (r : EnumRequest) : (t.handle r).Sound ∧ t.Extends (t.handle r) := by
  cases r with
  | reserve name => exact reserve_spec h name
  | register entity field spec => exact register_spec h entity field spec

theorem foldl_handle_spec (h : t.Sound) (requests : List EnumRequest) :
    (requests.foldl handle t).Sound ∧ t.Extends (requests.foldl handle t) := by
  induction requests generalizing t with
  | nil => exact ⟨h, .refl t⟩
  | cons r rest ih =>
    obtain ⟨sound, ext⟩ := handle_spec h r
    obtain ⟨sound', ext'⟩ := ih sound
    exact ⟨sound', ext.trans ext'⟩

theorem after_append (pre post : List EnumRequest) :
    after (pre ++ post) = post.foldl handle (after pre) :=
  List.foldl_append

theorem sound_after (requests : List EnumRequest) : (after requests).Sound :=
  (foldl_handle_spec .empty requests).1

theorem extends_after (pre post : List EnumRequest) : (after pre).Extends (after (pre ++ post)) := by
  rw [after_append]
  exact (foldl_handle_spec (sound_after pre) post).2

-- Exactly the registered fields own something.
theorem owner?_foldl_eq_none_iff :
    (requests.foldl handle t).owner? entity field = none ↔
      t.owner? entity field = none ∧ ∀ spec, .register entity field spec ∉ requests := by
  induction requests generalizing t with
  | nil => simp
  | cons r rest ih =>
    rw [List.foldl_cons, ih]
    cases r with
    | reserve name => simp [handle, reserve, owner?]
    | register entity' field' spec' =>
      rw [handle, owner?_register]
      split
      case isTrue same =>
        obtain ⟨rfl, rfl⟩ := same
        simp only [reduceCtorEq, false_and, List.mem_cons, false_iff]
        exact fun h => h.2 spec' (.inl rfl)
      case isFalse apart => grind

theorem owner?_after_eq_none_iff :
    (after requests).owner? entity field = none ↔
      ∀ spec, .register entity field spec ∉ requests := by
  rw [after, owner?_foldl_eq_none_iff]
  simp [owner?]

theorem extends_register (pre : List EnumRequest) (entity field : String) (spec : EnumSpec)
    (rest : List EnumRequest) : ((after pre).register entity field spec).2.Extends
      (after (pre ++ .register entity field spec :: rest)) := by
  rw [List.append_cons, after_append, after_append]
  exact (foldl_handle_spec (register_spec (sound_after pre) entity field spec).1 rest).2

theorem register_of_owner (h : t.owner? entity field = some name) (spec : EnumSpec) :
    t.register entity field spec = (.shared name, t) := by
  rw [register, h]

theorem fresh_of_mem_drop (h : t.Extends t') :
    ∀ entry ∈ t'.entries.drop t.entries.length, ∀ n ∈ entry.names, n ∉ t.taken := by
  obtain ⟨new, e, fresh⟩ := h.entries
  rw [e, List.drop_left]
  exact fresh

theorem mem_taken_of_reserved (h : .reserve name ∈ requests) : name ∈ (after requests).taken := by
  obtain ⟨pre, post, rfl⟩ := List.append_of_mem h
  rw [List.append_cons]
  refine (extends_after (pre ++ [.reserve name]) post).taken name ?_
  rw [after_append]
  exact List.mem_cons_self ..

-- Names in the table differ. Nothing gets a name that was reserved before. Entries are only ever added
-- at the end. A field owns an entry with the labels that it was registered with first, and to
-- register it again changes nothing.
theorem names_and_owners_after (pre post : List EnumRequest) :
    (after (pre ++ post)).names.Nodup ∧
    (∀ name, .reserve name ∈ pre →
      ∀ entry ∈ (after (pre ++ post)).entries.drop (after pre).entries.length, name ∉ entry.names) ∧
    (after pre).entries <+: (after (pre ++ post)).entries ∧
    ∀ entity field spec, (∀ other, .register entity field other ∉ pre) →
      ∀ rest, post = .register entity field spec :: rest →
        ∃ entry ∈ (after (pre ++ post)).entries,
          (after (pre ++ post)).entryFor? entity field = some entry ∧ entry.labels = spec.labels ∧
          ∀ other, (after (pre ++ post)).register entity field other =
            (.shared entry.name, after (pre ++ post)) := by
  have ext := extends_after pre post
  refine ⟨(sound_after _).distinct, fun name hr entry mem hn => ?_, ext.entries_prefix, ?_⟩
  · exact fresh_of_mem_drop ext entry mem name hn (mem_taken_of_reserved hr)
  · rintro entity field spec unknown rest rfl
    obtain ⟨entry, found, labels, _⟩ :=
      entry_of_register (owner?_after_eq_none_iff.2 unknown) spec
    have owner := owner?_register (after pre) entity field spec entity field
    rw [if_pos ⟨rfl, rfl⟩] at owner
    have ext' := extends_register pre entity field spec rest
    have found' := ext'.get? found
    have owner' := ext'.owners owner
    obtain ⟨mem, called⟩ := (get?_eq_some_iff (sound_after _).distinct).1 found'
    refine ⟨entry, mem, ?_, labels, fun other => ?_⟩
    · rw [entryFor?, owner']
      exact found'
    · rw [called]
      exact register_of_owner owner' other

-- A field that is registered twice, beside a name that was reserved and one that was asked for twice.
theorem names_and_owners_after_second_registration :
    let pre : List EnumRequest :=
      [.reserve "Status", .register "Order" "status" ⟨"Status", ["new"], some ["New"]⟩]
    let post : List EnumRequest :=
      [.register "Ticket" "state" ⟨"State", ["new", "closed"], some ["New", "Closed"]⟩,
       .register "Order" "status" ⟨"State", ["open"], none⟩]
    (after (pre ++ post)).names = ["Status2", "New", "State", "New2", "Closed"] ∧
    (after (pre ++ post)).names.Nodup ∧ (after pre).entries <+: (after (pre ++ post)).entries ∧
    ∃ entry ∈ (after (pre ++ post)).entries,
      (after (pre ++ post)).entryFor? "Ticket" "state" = some entry ∧
      entry.labels = ["new", "closed"] ∧
      ∀ other, (after (pre ++ post)).register "Ticket" "state" other =
        (.shared entry.name, after (pre ++ post)) := by
  intro pre post
  obtain ⟨distinct, _, kept, owned⟩ := names_and_owners_after pre post
  exact ⟨by decide, distinct, kept, owned "Ticket" "state" _ (by simp [pre]) _ rfl⟩

-- What did not go by a name before does not later, unless the name was free.
theorem Extends.not_admits {labels wanted : List String} (ext : t.Extends t')
    (h : t.admits labels wanted name = false) : t'.admits labels wanted name = false := by
  rw [admits] at h
  cases found : t.get? name with
  | some entry =>
    rw [found] at h
    rw [admits, ext.get? found]
    exact h
  | none =>
    rw [found] at h
    have taken : name ∈ t.taken := by simpa using h
    rw [admits, ext.get?_eq_none found taken]
    simpa using ext.taken name taken

-- Options go by the same name again as long as the name admits them.
theorem Extends.assignedName_eq (ext : t.Extends t') {labels wanted : List String}
    {requested : String}
    (admitted : t'.admits labels wanted (t.assignedName requested labels wanted) = true) :
    t'.assignedName requested labels wanted = t.assignedName requested labels wanted := by
  let count := max (t.entries.length + t.taken.length) (t'.entries.length + t'.taken.length)
  have first := t.find?_candidates requested labels wanted (Nat.le_max_left _ _ : _ ≤ count)
  have second := t'.find?_candidates requested labels wanted (Nat.le_max_right _ _ : _ ≤ count)
  obtain ⟨_, before, after, candidates, others⟩ := List.find?_eq_some_iff_append.1 first
  have same : (Naming.candidates requested count).find? (t'.admits labels wanted) =
      some (t.assignedName requested labels wanted) :=
    List.find?_eq_some_iff_append.2 ⟨admitted, before, after, candidates, fun name mem => by
      simpa using ext.not_admits (by simpa using others name mem)⟩
  exact Option.some.inj (second.symm.trans same)

-- Two fields of the same options share an entry exactly if the first of them got the constants that
-- it asked for.
theorem shared_iff_consts_kept {pre between : List EnumRequest} {entity field entity' field' : String}
    (spec : EnumSpec) (unknown : ∀ other, .register entity field other ∉ pre)
    (apart : (entity, field) ≠ (entity', field'))
    (unknown' : ∀ other, .register entity' field' other ∉ pre ++ between) :
    let first := (after pre).register entity field spec
    let t := after (pre ++ .register entity field spec :: between)
    let second := t.register entity' field' spec
    (second.1.name = first.1.name ↔
      ((after pre).get? first.1.name).isSome ∨ spec.wantedConsts.Nodup ∧
        ∀ const ∈ spec.wantedConsts, const ≠ first.1.name ∧ const ∉ (after pre).taken) ∧
    (second.1.name = first.1.name → second.2.entries = t.entries) := by
  obtain ⟨entry, found, labels, kept⟩ :=
    entry_of_register (owner?_after_eq_none_iff.2 unknown) spec
  have unknown'' : (after (pre ++ .register entity field spec :: between)).owner? entity' field' =
      none := by
    rw [owner?_after_eq_none_iff]
    grind
  have later := (extends_register pre entity field spec between).get? found
  have ext := extends_after pre (.register entity field spec :: between)
  generalize after (pre ++ .register entity field spec :: between) = t at unknown'' later ext ⊢
  have name := register_name (owner?_after_eq_none_iff.2 unknown) spec
  have name' := register_name unknown'' spec
  have admits_iff : t.admits spec.labels spec.wantedConsts
      ((after pre).register entity field spec).1.name = true ↔
        entry.constNames = spec.wantedConsts := by
    rw [admits, later, EnumEntry.sameOptions_iff]
    exact and_iff_right labels
  refine ⟨⟨fun same => ?_, fun h => ?_⟩, fun same => ?_⟩
  · have admitted := t.admits_assignedName spec.typeName spec.labels spec.wantedConsts
    rw [← name', same, admits_iff] at admitted
    exact kept.1 admitted
  · have admitted := admits_iff.2 (kept.2 h)
    rw [name] at admitted ⊢
    rw [name', ext.assignedName_eq admitted]
  · exact register_entries spec (same ▸ later)

def orderStatus : EnumRequest :=
  .register "Order" "status" ⟨"Status", ["new", "paid"], none⟩

-- The name of the second enumeration is taken, so that it goes by another one. It is shared all the
-- same.
theorem options_shared_under_assigned_name :
    let spec : EnumSpec := ⟨"Status", ["open", "closed"], none⟩
    let first := (after [orderStatus]).register "Ticket" "status" spec
    let t := after ([orderStatus] ++ [.register "Ticket" "status" spec, .reserve "Open"])
    let second := t.register "Issue" "state" spec
    first.1 = .renamed "Status" "Status2" ∧ second.1.name = first.1.name ∧
      second.2.entries = t.entries := by
  intro spec first t second
  have unknown : ∀ other, .register "Ticket" "status" other ∉ [orderStatus] := by
    simp [orderStatus]
  have unknown' : ∀ other, .register "Issue" "state" other ∉ [orderStatus] ++ [.reserve "Open"] := by
    simp [orderStatus]
  obtain ⟨shared, added⟩ := shared_iff_consts_kept spec unknown (by decide) unknown'
  have same : second.1.name = first.1.name := shared.2 (.inr (by decide))
  exact ⟨by decide, same, added same⟩

-- The constant `New` belongs to another enumeration, so that the first field gets `New2`. The second
-- field asks for `New` as well, and is given an entry of its own.
theorem options_apart_after_const_clash :
    let spec : EnumSpec := ⟨"State", ["new", "closed"], none⟩
    let first := (after [orderStatus]).register "Ticket" "state" spec
    let t := after ([orderStatus] ++ [.register "Ticket" "state" spec])
    let second := t.register "Issue" "state" spec
    second.1.name ≠ first.1.name ∧ second.2.entries ≠ t.entries := by
  decide

end EnumTable

end FieldAccess
