import FieldAccess.Eval.Program
import FieldAccess.Generate.Run
import FieldAccess.Proofs.CatalogBuild
import FieldAccess.Proofs.Success
import Mathlib.Data.List.Forall2

namespace FieldAccess

namespace Namespace

variable {reserved : List String} {entity : String}

theorem memberCollisions_eq_nil_iff {seen : List Member} {m : Member} :
    memberCollisions reserved entity seen m = [] ↔
      m.name ∉ reserved ∧ m.name ∉ seen.map (·.name) := by
  unfold memberCollisions
  rw [List.append_eq_nil_iff]
  refine and_congr (by simp) ?_
  cases h : seen.find? (·.name = m.name) with
  | none => simpa [eq_comm] using List.find?_eq_none.1 h
  | some first =>
    have same : first.name = m.name := by simpa using List.find?_some h
    have mem := List.mem_map_of_mem (f := (·.name)) (List.mem_of_find?_eq_some h)
    simpa [same] using mem

theorem collisionsFrom_eq_nil_iff {seen ms : List Member} :
    collisionsFrom reserved entity seen ms = [] ↔
      (∀ m ∈ ms, m.name ∉ reserved ∧ m.name ∉ seen.map (·.name)) ∧ (ms.map (·.name)).Nodup := by
  induction ms generalizing seen with
  | nil => simp [collisionsFrom]
  | cons m rest ih =>
    rw [collisionsFrom, List.append_eq_nil_iff, memberCollisions_eq_nil_iff, ih]
    simp only [List.map_append, List.map_cons, List.map_nil, List.mem_append, List.mem_singleton,
      not_or, List.forall_mem_cons, List.nodup_cons, List.mem_map]
    grind

-- There are no collisions if all names differ and none is reserved.
theorem collisions_eq_nil_iff {n : Namespace} :
    n.collisions reserved = [] ↔
      n.entity ∉ reserved ∧ (∀ m ∈ n.members, m.name ∉ reserved) ∧
        (n.members.map (·.name)).Nodup := by
  rw [collisions, List.append_eq_nil_iff, collisionsFrom_eq_nil_iff]
  simp

theorem allCollisions_eq_nil_iff {ns : List Namespace} :
    allCollisions reserved ns = [] ↔ ∀ n ∈ ns, n.collisions reserved = [] := by
  simp [allCollisions]

end Namespace

section

variable {settings : Settings} {enums : EnumTable} {info : FieldInfo} {c : Classification}

theorem FieldInfo.isProxied_iff : info.isProxied ↔ ∃ c, info.classification? = some c := by
  simp [isProxied, Access.isProxied, classification?, Option.isSome_iff_exists]

-- A proxied field has an accessor and a mutator on the wrapper of its entity.
theorem FieldInfo.accessors?_of_backed (classified : info.classification? = some c)
    (backed : info.Backed settings enums c) :
    ∃ pair, info.accessors? settings = some pair ∧
      pair.accessor.name = info.accessor ∧ pair.mutator.name = info.mutator ∧
      pair.accessor.receiverEntity? = some info.entity ∧
      pair.mutator.receiverEntity? = some info.entity := by
  unfold accessors?
  simp only [classified, Option.bind_some]
  cases backed with
  | primitive parsed =>
    simp only [declaredType?, parsed, Except.toOption, Option.map_some]
    exact ⟨_, rfl, rfl, rfl, rfl, rfl⟩
  | relation multiplicity => cases multiplicity <;> exact ⟨_, rfl, rfl, rfl, rfl, rfl⟩
  | enumeration multiplicity => cases multiplicity <;> exact ⟨_, rfl, rfl, rfl, rfl, rfl⟩

-- An accessor takes nothing, and a mutator takes one value.
theorem FieldInfo.params_of_accessors? {pair : AccessorPair}
    (h : info.accessors? settings = some pair) :
    pair.accessor.params = [] ∧ ∃ param, pair.mutator.params = [param] := by
  obtain ⟨c, _, h⟩ := Option.bind_eq_some_iff.1 h
  rcases c with _ | ⟨_ | _, _⟩ | ⟨_ | _, _⟩
  · obtain ⟨type, _, h⟩ := Option.map_eq_some_iff.1 h
    exact h ▸ ⟨rfl, _, rfl⟩
  all_goals exact Option.some.inj h ▸ ⟨rfl, _, rfl⟩

theorem FieldInfo.accessors?_eq_none (h : ¬info.isProxied) : info.accessors? settings = none := by
  rw [isProxied_iff, ← Option.isSome_iff_exists, Option.not_isSome_iff_eq_none] at h
  rw [accessors?]
  simp only [h, Option.bind_none]

end

namespace EnumTable

variable {t : EnumTable} {entry : EnumEntry} {emitted : List String} {infos : List FieldInfo}

theorem name_of_get? {name : String} (h : t.get? name = some entry) : entry.name = name := by
  simpa using List.find?_some h

theorem get?_of_mem_firstUses (h : entry ∈ t.firstUses emitted infos) :
    t.get? entry.name = some entry := by
  induction infos generalizing emitted with
  | nil => cases h
  | cons info rest ih =>
    rw [firstUses] at h
    split at h
    case h_1 first found =>
      split at h
      · exact ih h
      · rcases List.mem_cons.1 h with rfl | h
        · obtain ⟨name, _, found⟩ := Option.bind_eq_some_iff.1 found
          exact name_of_get? found ▸ found
        · exact ih h
    case h_2 => exact ih h

theorem mem_firstUses {info : FieldInfo} (emitted : List String) (mem : info ∈ infos)
    (found : info.enum?.bind t.get? = some entry) :
    entry.name ∈ emitted ∨ entry ∈ t.firstUses emitted infos := by
  induction infos generalizing emitted with
  | nil => cases mem
  | cons head rest ih =>
    rw [firstUses]
    rcases List.mem_cons.1 mem with rfl | mem
    · rw [found]
      by_cases known : entry.name ∈ emitted
      · exact .inl known
      · simp [known]
    · split
      case h_1 first found' =>
        split
        · exact ih emitted mem
        · rcases ih (first.name :: emitted) mem with known | new
          · rcases List.mem_cons.1 known with same | known
            · obtain ⟨name, _, h⟩ := Option.bind_eq_some_iff.1 found
              obtain ⟨name', _, h'⟩ := Option.bind_eq_some_iff.1 found'
              obtain rfl : name = name' := by rw [← name_of_get? h, ← name_of_get? h', same]
              obtain rfl := Option.some.inj (h.symm.trans h')
              exact .inr (List.mem_cons_self ..)
            · exact .inl known
          · exact .inr (List.mem_cons_of_mem _ new)
      case h_2 => exact ih emitted mem

end EnumTable

namespace Catalog

variable {settings : Settings} {enums : EnumTable} {methods : List FuncDecl}
  {emitted : List String} {es : List EntityFields} {d : Decl}

theorem mem_declarationsFrom_cons {e : EntityFields} {rest : List EntityFields} :
    d ∈ declarationsFrom enums settings methods emitted (e :: rest) ↔
      (∃ entry ∈ enums.firstUses emitted e.fields, d ∈ entry.declarations settings) ∨
        d = e.entity.wrapper ∨ (∃ f ∈ e.functions settings methods, .func f = d) ∨
          d ∈ declarationsFrom enums settings methods
            ((enums.firstUses emitted e.fields).map (·.name) ++ emitted) rest := by
  simp only [declarationsFrom, List.mem_append, List.mem_cons, List.mem_map, List.mem_flatMap,
    or_assoc]

-- A declaration belongs to an enumeration, all declarations of which are there, or it is a wrapper or
-- one of its functions.
theorem declaration_cases (h : d ∈ declarationsFrom enums settings methods emitted es) :
    (∃ entry, enums.get? entry.name = some entry ∧ d ∈ entry.declarations settings ∧
        entry.declarations settings ⊆ declarationsFrom enums settings methods emitted es) ∨
      ∃ e ∈ es, d = e.entity.wrapper ∨ ∃ f ∈ e.functions settings methods, d = .func f := by
  induction es generalizing emitted with
  | nil => cases h
  | cons e rest ih =>
    rcases mem_declarationsFrom_cons.1 h with ⟨entry, new, hd⟩ | wrapper | ⟨f, hf, same⟩ | later
    · exact .inl ⟨entry, EnumTable.get?_of_mem_firstUses new, hd, fun d' hd' =>
        mem_declarationsFrom_cons.2 (.inl ⟨entry, new, hd'⟩)⟩
    · exact .inr ⟨e, List.mem_cons_self .., .inl wrapper⟩
    · exact .inr ⟨e, List.mem_cons_self .., .inr ⟨f, hf, same.symm⟩⟩
    · rcases ih later with ⟨entry, found, hd, all⟩ | ⟨e', he, rest⟩
      · exact .inl ⟨entry, found, hd, fun d' hd' =>
          mem_declarationsFrom_cons.2 (.inr (.inr (.inr (all hd'))))⟩
      · exact .inr ⟨e', List.mem_cons_of_mem _ he, rest⟩

theorem func_mem_declarationsFrom {e : EntityFields} {f : FuncDecl} (he : e ∈ es)
    (hf : f ∈ e.functions settings methods) :
    .func f ∈ declarationsFrom enums settings methods emitted es := by
  induction es generalizing emitted with
  | nil => cases he
  | cons e' rest ih =>
    rw [mem_declarationsFrom_cons]
    rcases List.mem_cons.1 he with rfl | he
    · exact .inr (.inr (.inl ⟨f, hf, rfl⟩))
    · exact .inr (.inr (.inr (ih he)))

theorem wrapper_mem_declarationsFrom {e : EntityFields} (he : e ∈ es) :
    e.entity.wrapper ∈ declarationsFrom enums settings methods emitted es := by
  induction es generalizing emitted with
  | nil => cases he
  | cons e' rest ih =>
    rw [mem_declarationsFrom_cons]
    rcases List.mem_cons.1 he with rfl | he
    · exact .inr (.inl rfl)
    · exact .inr (.inr (.inr (ih he)))

-- The declarations of the enumeration of a field stand among all declarations.
variable (settings methods) in
theorem enum_mem_declarationsFrom {e : EntityFields} {info : FieldInfo} {entry : EnumEntry}
    (emitted : List String) (he : e ∈ es) (hi : info ∈ e.fields)
    (found : info.enum?.bind enums.get? = some entry)
    (hd : d ∈ entry.declarations settings) :
    entry.name ∈ emitted ∨ d ∈ declarationsFrom enums settings methods emitted es := by
  induction es generalizing emitted with
  | nil => cases he
  | cons e' rest ih =>
    rw [mem_declarationsFrom_cons]
    rcases List.mem_cons.1 he with rfl | he
    · exact (EnumTable.mem_firstUses emitted hi found).imp_right fun new =>
        .inl ⟨entry, new, hd⟩
    · rcases ih ((enums.firstUses emitted e'.fields).map (·.name) ++ emitted) he with
        known | later
      · rcases List.mem_append.1 known with new | known
        · obtain ⟨entry', new, same⟩ := List.mem_map.1 new
          have found' := EnumTable.get?_of_mem_firstUses new
          obtain ⟨_, _, h⟩ := Option.bind_eq_some_iff.1 found
          obtain rfl := EnumTable.name_of_get? h
          rw [same, h] at found'
          obtain rfl := Option.some.inj found'
          exact .inr (.inl ⟨_, new, hd⟩)
        · exact .inl known
      · exact .inr (.inr (.inr (.inr later)))

end Catalog

namespace EntityFields

variable {settings : Settings} {enums : EnumTable} {methods : List FuncDecl} {e : EntityFields}
  {f : FuncDecl}

theorem names_accessors {infos : List FieldInfo}
    (backed : ∀ info ∈ infos, ∀ c, info.classification? = some c → info.Backed settings enums c) :
    ((infos.filterMap (·.accessors? settings)).flatMap fun pair =>
        [pair.accessor, pair.mutator]).map (·.name) =
      (infos.flatMap Namespace.ofField).map (·.name) := by
  induction infos with
  | nil => rfl
  | cons info rest ih =>
    have later := ih fun i mem => backed i (List.mem_cons_of_mem _ mem)
    rw [List.flatMap_cons, List.map_append, ← later]
    by_cases proxied : info.isProxied
    · obtain ⟨c, hc⟩ := FieldInfo.isProxied_iff.1 proxied
      obtain ⟨pair, found, accessor, mutator, _⟩ :=
        FieldInfo.accessors?_of_backed hc (backed info (List.mem_cons_self ..) c hc)
      simp [found, Namespace.ofField, proxied, accessor, mutator]
    · simp [FieldInfo.accessors?_eq_none proxied, Namespace.ofField, proxied]

variable (methods) in
-- The functions of a wrapper have the names that are checked for collisions.
theorem names_functions (built : Catalog.FieldsBuilt settings e.name enums e.fields) :
    ((e.functions settings methods).map (·.name)).Perm
      ((Namespace.ofEntity e methods).members.map (·.name)) := by
  have getter : (e.entity.collectionGetter? settings).toList.map (·.name) =
      (if e.entity.collection.isSome then
        [⟨collectionGetter, .collectionGetter, e.entity.span⟩] else []).map Member.name := by
    unfold Entity.collectionGetter?
    cases e.entity.collection <;> rfl
  simp only [functions, Namespace.ofEntity, List.map_append, List.map_map, accessors,
    names_accessors built.backed, getter]
  exact (List.perm_append_comm.append_right _).trans
    (List.perm_append_comm.trans (.of_eq (List.append_assoc ..).symm)) |>.trans
      (.append_right _ (.refl _))

theorem receiverEntity?_of_mem_functions
    (built : Catalog.FieldsBuilt settings e.name enums e.fields)
    (h : f ∈ e.functions settings methods) : f.receiverEntity? = some e.name := by
  simp only [functions, accessors, List.mem_append, List.mem_filter, Option.mem_toList,
    List.mem_flatMap, List.mem_filterMap] at h
  rcases h with (⟨_, h⟩ | h) | ⟨pair, ⟨info, mem, found⟩, hf⟩
  · simpa using h
  · obtain ⟨_, _, h⟩ := Option.map_eq_some_iff.1 h
    rw [← h]
    rfl
  · have proxied : info.isProxied := by
      by_contra h
      simp [FieldInfo.accessors?_eq_none h] at found
    obtain ⟨c, hc⟩ := FieldInfo.isProxied_iff.1 proxied
    obtain ⟨pair', found', _, _, accessor, mutator⟩ :=
      FieldInfo.accessors?_of_backed hc (built.backed info mem c hc)
    obtain rfl := Option.some.inj (found.symm.trans found')
    rw [← built.entity info mem]
    rcases List.mem_pair.1 hf with rfl | rfl
    · exact accessor
    · exact mutator

variable (methods) in
theorem accessor_mem_functions {info : FieldInfo} {pair : AccessorPair} (mem : info ∈ e.fields)
    (found : info.accessors? settings = some pair) :
    pair.accessor ∈ e.functions settings methods ∧ pair.mutator ∈ e.functions settings methods := by
  have listed : pair ∈ e.accessors settings := List.mem_filterMap.2 ⟨info, mem, found⟩
  constructor <;>
    exact List.mem_append_right _ (List.mem_flatMap.2 ⟨pair, listed, by simp⟩)

end EntityFields

namespace Program

variable {p : Program}

-- A lookup finds the one value that declarations give.
theorem last?_eq_some {α : Type} {f : Decl → Option α} {d : Decl} {a : α}
    (mem : d ∈ p.declarations) (value : f d = some a)
    (unique : ∀ d' ∈ p.declarations, ∀ a', f d' = some a' → a' = a) : p.last? f = some a := by
  have some : (p.last? f).isSome := by
    rw [last?, List.findSome?_isSome_iff]
    exact ⟨d, List.mem_reverse.2 mem, by simp [value]⟩
  obtain ⟨a', found⟩ := Option.isSome_iff_exists.1 some
  obtain ⟨d', mem', value'⟩ := List.exists_of_findSome?_eq_some found
  rw [found, unique d' (List.mem_reverse.1 mem') a' value']

theorem last?_eq_none_iff {α : Type} {f : Decl → Option α} :
    p.last? f = none ↔ ∀ d ∈ p.declarations, f d = none := by
  simp [last?, List.findSome?_eq_none_iff]

end Program

namespace Catalog

-- What a run checks before it gives the declarations of a catalog.
structure Clean (c : Catalog) (settings : Settings) (enums : EnumTable) (methods : List FuncDecl) :
    Prop where
  built : EntitiesBuilt settings enums c.entities
  apart : ∀ e ∈ c.entities, (Namespace.ofEntity e methods).collisions settings.reserved = []

-- All declarations of a catalog, as a program.
def program (c : Catalog) (settings : Settings) (enums : EnumTable) (methods : List FuncDecl) :
    Program :=
  ⟨c.declarations enums settings methods⟩

namespace Clean

variable {c : Catalog} {settings : Settings} {enums : EnumTable} {methods : List FuncDecl}
  (clean : c.Clean settings enums methods) {e : EntityFields} {f : FuncDecl} {name : String}

include clean

theorem nodup_functions (he : e ∈ c.entities) :
    ((e.functions settings methods).map (·.name)).Nodup := by
  obtain ⟨_, _, distinct⟩ := Namespace.collisions_eq_nil_iff.1 (clean.apart e he)
  exact (e.names_functions methods (clean.built.fields e he)).nodup_iff.2 distinct

theorem not_reserved (he : e ∈ c.entities) (hf : f ∈ e.functions settings methods) :
    f.name ∉ settings.reserved := by
  obtain ⟨_, free, _⟩ := Namespace.collisions_eq_nil_iff.1 (clean.apart e he)
  have named := (e.names_functions methods (clean.built.fields e he)).mem_iff.1
    (List.mem_map_of_mem (f := (·.name)) hf)
  obtain ⟨m, mem, same⟩ := List.mem_map.1 named
  exact same ▸ free m mem

-- The functions of a program are those of its wrappers, and helpers without a receiver.
theorem func_cases (h : .func f ∈ (c.program settings enums methods).declarations) :
    (∃ e ∈ c.entities, f ∈ e.functions settings methods ∧ f.receiverEntity? = some e.name) ∨
      f.receiverEntity? = none ∧ ∃ enum, f.name = settings.sliceHelper enum := by
  rcases declaration_cases h with ⟨entry, _, hd, _⟩ | ⟨e, he, hd | ⟨f', hf, hd⟩⟩
  · simp only [EnumEntry.declarations, List.mem_cons, reduceCtorEq, Decl.func.injEq, false_or,
      List.not_mem_nil, or_false] at hd
    exact .inr (hd ▸ ⟨rfl, entry.name, rfl⟩)
  · cases hd
  · cases hd
    exact .inl ⟨e, he, hf, EntityFields.receiverEntity?_of_mem_functions (clean.built.fields e he) hf⟩

theorem method?_eq_some (he : e ∈ c.entities) (hf : f ∈ e.functions settings methods) :
    (c.program settings enums methods).method? e.name f.name = some f := by
  refine Program.last?_eq_some (d := .func f) (func_mem_declarationsFrom he hf) ?_ ?_
  · simp [Decl.func?, EntityFields.receiverEntity?_of_mem_functions (clean.built.fields e he) hf]
  · intro d mem f' value
    obtain ⟨hd, hr⟩ := Option.filter_eq_some_iff.1 value
    obtain ⟨receiver, called⟩ : f'.receiverEntity? = some e.name ∧ f'.name = f.name := by
      simpa using hr
    obtain rfl : d = .func f' := by cases d <;> simp_all [Decl.func?]
    rcases clean.func_cases mem with ⟨e', he', hf', receiver'⟩ | ⟨none, _⟩
    · have same : e'.name = e.name := Option.some.inj (receiver'.symm.trans receiver)
      obtain rfl := List.inj_on_of_nodup_map clean.built.distinct he' he same
      exact List.inj_on_of_nodup_map (clean.nodup_functions he) hf' hf called
    · simp [receiver] at none

-- What the record store has under a reserved name is not hidden by any method.
theorem method?_eq_none (type : String) (reserved : name ∈ settings.reserved) :
    (c.program settings enums methods).method? type name = none := by
  refine Program.last?_eq_none_iff.2 fun d mem => Option.filter_eq_none_iff.2 fun f hd => ?_
  obtain rfl : d = .func f := by cases d <;> simp_all [Decl.func?]
  rcases clean.func_cases mem with ⟨e, he, hf, _⟩ | ⟨none, _⟩
  · have free := clean.not_reserved he hf
    simp only [decide_eq_true_eq, not_and, Bool.and_eq_true]
    exact fun _ same => free (same ▸ reserved)
  · simp [none]

theorem function?_eq_none (other : ∀ enum, name ≠ settings.sliceHelper enum) :
    (c.program settings enums methods).function? name = none := by
  refine Program.last?_eq_none_iff.2 fun d mem => Option.filter_eq_none_iff.2 fun f hd => ?_
  obtain rfl : d = .func f := by cases d <;> simp_all [Decl.func?]
  rcases clean.func_cases mem with ⟨_, _, _, receiver⟩ | ⟨_, enum, called⟩
  · simp [receiver]
  · simp [called, (other enum).symm]

end Clean

end Catalog

-- The program that a run gives.
def Generated.program (g : Generated) : Program :=
  ⟨g.declarations⟩

theorem partitionResults_ok {E α : Type} (as : List α) :
    partitionResults (as.map (Except.ok : α → Except E α)) = ([], as) := by
  induction as with
  | nil => rfl
  | cons a rest ih => rw [List.map_cons, partitionResults, ih]

theorem exists_of_partitionResults {E α : Type} {rs : List (Except E α)}
    (h : (partitionResults rs).1 = []) : ∃ as : List α, rs = as.map Except.ok := by
  induction rs with
  | nil => exact ⟨[], rfl⟩
  | cons r rest ih =>
    cases r with
    | error fault => cases h
    | ok a =>
      obtain ⟨as, rfl⟩ := ih h
      exact ⟨a :: as, rfl⟩

-- Redirection changes nothing but the body.
theorem FuncDecl.redirect_header {f g : FuncDecl} {c : Catalog} {table : MethodTable}
    {settings : Settings} (h : f.redirect c table settings = .ok g) : g = { f with body := g.body } := by
  simp only [redirect, redirectIn, ok_bind] at h
  obtain ⟨_, _, _, _, h⟩ := h
  obtain rfl := ok_pure.1 h
  rfl

theorem FuncDecl.names_of_headers {fs gs : List FuncDecl}
    (h : List.Forall₂ (fun f g => g = { f with body := g.body }) fs gs) (entity : String) :
    (gs.filter (·.receiverEntity? = some entity)).map (·.name) =
      (fs.filter (·.receiverEntity? = some entity)).map (·.name) := by
  induction h with
  | nil => rfl
  | @cons f g _ _ head _ ih =>
    have receiver : g.receiverEntity? = f.receiverEntity? := by rw [head]; rfl
    have name : g.name = f.name := by rw [head]
    by_cases on : f.receiverEntity? = some entity
    · simpa [on, receiver, name] using ih
    · simpa [on, receiver] using ih

namespace Run

variable {schema : Schema} {settings : Settings} {methods redirected : List FuncDecl}
  {g : Generated}

-- All methods are redirected, to these.
def Redirects (schema : Schema) (settings : Settings) (methods redirected : List FuncDecl) : Prop :=
  methods.map (·.redirect (Catalog.build schema settings {}).value ⟨methods⟩ settings) =
    redirected.map .ok

theorem Redirects.each (h : Redirects schema settings methods redirected) :
    List.Forall₂
      (fun f g => f.redirect (Catalog.build schema settings {}).value ⟨methods⟩ settings = .ok g)
      methods redirected := by
  unfold Redirects at h
  rw [← List.forall₂_eq_eq_eq] at h
  exact List.forall₂_map_right_iff.1 (List.forall₂_map_left_iff.1 h)

theorem Redirects.unique {redirected' : List FuncDecl} (h : Redirects schema settings methods redirected)
    (h' : Redirects schema settings methods redirected') : redirected = redirected' :=
  List.map_injective_iff.2 (fun _ _ => Except.ok.inj) (h.symm.trans h')

-- The members of a wrapper keep their names when the methods are redirected.
theorem Redirects.names (h : Redirects schema settings methods redirected) (e : EntityFields) :
    (Namespace.ofEntity e redirected).members.map (·.name) =
      (Namespace.ofEntity e methods).members.map (·.name) := by
  have same := FuncDecl.names_of_headers (h.each.imp fun _ _ => FuncDecl.redirect_header) e.name
  simp only [Namespace.ofEntity, List.map_append, List.map_map, Function.comp_def] at same ⊢
  rw [same]

theorem Redirects.collisions (h : Redirects schema settings methods redirected) (e : EntityFields) :
    (Namespace.ofEntity e redirected).collisions settings.reserved = [] ↔
      (Namespace.ofEntity e methods).collisions settings.reserved = [] := by
  simp only [Namespace.collisions_eq_nil_iff, ← List.forall_mem_map (f := Member.name)
    (P := (· ∉ settings.reserved)), h.names e]
  rfl

-- What a run gives once all methods are redirected and no error of the classification is fatal.
theorem result_of_redirects (h : Redirects schema settings methods redirected)
    (mild : settings.strict = true → (Catalog.build schema settings {}).errors = []) :
    (ofSchema schema settings methods).result =
      let built := Catalog.build schema settings {}
      let found := Namespace.allCollisions settings.reserved
        (built.value.entities.map (Namespace.ofEntity · methods))
      if found = [] then
        .ok ⟨built.value.declarations built.enums settings redirected, built.enums.entries⟩
      else .error (.collisions found) := by
  have fatal : (if settings.strict then (Catalog.build schema settings {}).errors else []) = [] := by
    split
    case isTrue strict => exact mild strict
    case isFalse => rfl
  have parts := h ▸ partitionResults_ok (E := RedirectError) redirected
  simp only [ofSchema, ofCatalog, parts, fatal]
  by_cases none : Namespace.allCollisions settings.reserved
      ((Catalog.build schema settings {}).value.entities.map (Namespace.ofEntity · methods)) = []
  · simp [none, Namespace.check_of_eq_nil none]
  · simp [none, Namespace.check_of_ne_nil none]

theorem clear_of_ok (h : (ofSchema schema settings methods).result = .ok g) :
    (∃ redirected, Redirects schema settings methods redirected) ∧
      (settings.strict = true → (Catalog.build schema settings {}).errors = []) := by
  unfold ofSchema ofCatalog at h
  generalize chosen :
    (if settings.strict then (Catalog.build schema settings {}).errors else []) = fatal at h
  dsimp only at h
  split at h
  · cases h
  case isFalse clear =>
    simp only [Bool.or_eq_true, Bool.not_eq_true', List.isEmpty_eq_false_iff, not_or,
      ne_eq, not_not] at clear
    obtain ⟨complete, rfl⟩ := clear
    exact ⟨exists_of_partitionResults complete, fun strict => by simpa [strict] using chosen⟩

-- A run that succeeds gives the declarations of a clean catalog, with all methods redirected.
theorem redirects_of_ok (h : (ofSchema schema settings methods).result = .ok g) :
    ∃ redirected, Redirects schema settings methods redirected ∧
      (settings.strict = true → (Catalog.build schema settings {}).errors = []) ∧
      (Catalog.build schema settings {}).value.Clean settings
        (Catalog.build schema settings {}).enums redirected ∧
      g = ⟨(Catalog.build schema settings {}).value.declarations
          (Catalog.build schema settings {}).enums settings redirected,
        (Catalog.build schema settings {}).enums.entries⟩ := by
  obtain ⟨⟨redirected, each⟩, mild⟩ := clear_of_ok h
  rw [result_of_redirects each mild] at h
  dsimp only at h
  split at h
  case isFalse => cases h
  case isTrue apart =>
    refine ⟨redirected, each, mild, ⟨Catalog.build_spec schema settings, fun e he => ?_⟩,
      (Except.ok.inj h).symm⟩
    exact (each.collisions e).2 (Namespace.allCollisions_eq_nil_iff.1 apart _ (List.mem_map_of_mem he))

-- A run without methods gives the program of its catalog.
theorem ofSchema_ok (h : (ofSchema schema settings []).result = .ok g) :
    (Catalog.build schema settings {}).value.Clean settings (Catalog.build schema settings {}).enums [] ∧
      g.program = (Catalog.build schema settings {}).value.program settings
        (Catalog.build schema settings {}).enums [] ∧
      g.enums = (Catalog.build schema settings {}).enums.entries := by
  obtain ⟨redirected, none, _, clean, rfl⟩ := redirects_of_ok h
  obtain rfl : redirected = [] := by simpa [Redirects] using none.symm
  exact ⟨clean, rfl, rfl⟩

end Run

end FieldAccess
