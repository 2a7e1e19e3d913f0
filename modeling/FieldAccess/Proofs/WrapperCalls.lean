import FieldAccess.Proofs.AccessorRuns
import FieldAccess.Proofs.WrapperMembers

namespace FieldAccess

-- The object is a wrapper of the entity, and holds the record.
structure Machine.Wraps (m : Machine) (wrapper : Nat) (entity : String) (record : Nat) : Prop where
  type : (m.object wrapper).type = entity
  holds : (m.object wrapper).fields.get? recordField = some (.record record)
  exist : record < m.records.size

section

variable {m m' : Machine} {a r : Nat} {entity : String}

theorem Machine.Wraps.recordOf? (h : m.Wraps a entity r) : m.recordOf? (.object a) = some r := by
  simp [Machine.recordOf?, h.holds]

-- What holds a record is an object.
theorem Machine.Wraps.lt_size (h : m.Wraps a entity r) : a < m.objects.size := by
  by_contra outside
  have absent : m.object a = default := by
    simp [Machine.object, Array.getElem?_eq_none (Nat.le_of_not_lt outside)]
  have holds := h.holds
  rw [absent] at holds
  cases holds

-- A wrapper stays one while its object stays as it is.
theorem Machine.Wraps.of_objects (h : m.Wraps a entity r) (objects : m'.objects = m.objects)
    (records : m'.records.size = m.records.size) : m'.Wraps a entity r where
  type := by rw [Machine.object, objects]; exact h.type
  holds := by rw [Machine.object, objects]; exact h.holds
  exist := records ▸ h.exist

end

-- Functions of the program come before the methods of the record that the object holds.
theorem Exec.callMethod_object (p : Program) (call : CallHandler) (m : Machine) (a : Nat)
    (name : String) (args : List Value) :
    callMethod p call (.object a) name args m =
      (match p.method? (m.object a).type name, m.recordOf? (.object a) with
      | some f, _ => call f (some (.object a)) args
      | none, some record => recordMethod record name args
      | none, none => fail (.noMember (.object a) name)) m := rfl

section

variable {c : Catalog} {settings : Settings} {enums : EnumTable} {methods : List FuncDecl}
  {e : EntityFields} {info : FieldInfo} {pair : AccessorPair} {call : CallHandler} {m : Machine}
  {a r rounds : Nat} {entity name : String} {args : List Value}

theorem Program.maxDepth_eq : maxDepth = 255 + 1 := rfl

-- A type that is no wrapper is an enumeration, and stands for integers.
theorem Catalog.defined_cases {type : TypeExpr}
    (h : .defined name type ∈ (c.program settings enums methods).declarations) :
    name ∈ enums.names ∧ type = .int := by
  rcases declaration_cases h with ⟨entry, found, hd, _⟩ | ⟨_, _, hd | ⟨_, _, hd⟩⟩
  · simp only [EnumEntry.declarations, List.mem_cons, List.not_mem_nil, or_false, reduceCtorEq,
      Decl.defined.injEq] at hd
    obtain ⟨rfl, rfl⟩ := hd
    refine ⟨List.mem_flatMap.2 ⟨entry, List.mem_of_find?_eq_some found, ?_⟩, rfl⟩
    exact List.mem_cons_self ..
  · cases hd
  · cases hd

theorem Program.defined_of_underlying? {p : Program} {type : TypeExpr}
    (h : p.underlying? name = some type) : .defined name type ∈ p.declarations := by
  unfold underlying? at h
  split at h
  case h_2 => cases h
  case h_1 found =>
    obtain rfl := Option.some.inj h
    obtain ⟨d, mem, value⟩ := List.exists_of_findSome?_eq_some found
    cases d with
    | defined n underlying =>
      obtain ⟨rfl, rfl⟩ : n = name ∧ underlying = _ := by simpa using value
      exact List.mem_reverse.1 mem
    | struct n fields => simp at value
    | _ => cases value

theorem Catalog.underlying?_eq_int {type : TypeExpr}
    (h : (c.program settings enums methods).underlying? name = some type) : type = .int :=
  (defined_cases (Program.defined_of_underlying? h)).2

namespace Catalog.Clean

variable (clean : c.Clean settings enums methods)

include clean

-- The names of conversions end in a letter that no builtin function ends in.
theorem plain : (c.program settings enums methods).Plain where
  function name hn := by
    refine clean.function?_eq_none fun enum same => ?_
    have other : ∀ x ∈ ["len", "make", "append", "panic"], x.toList.getLast? ≠ some 'f' := by decide
    exact other _ (same ▸ hn) (by simp [Settings.sliceHelper])
  underlying := Catalog.underlying?_eq_int

-- On a wrapper, a method of the record store is that of the record.
theorem callMethod_record (wraps : m.Wraps a entity r) (reserved : name ∈ settings.reserved) :
    Exec.callMethod (c.program settings enums methods) call (.object a) name args m =
      Exec.recordMethod r name args m := by
  rw [Exec.callMethod_object, clean.method?_eq_none _ reserved, wraps.recordOf?]

-- A function of the wrapper is found under its name.
theorem callMethod_function {f : FuncDecl} (he : e ∈ c.entities)
    (hf : f ∈ e.functions settings methods) (wraps : m.Wraps a e.name r) :
    Exec.callMethod (c.program settings enums methods) call (.object a) f.name args m =
      call f (some (.object a)) args m := by
  rw [Exec.callMethod_object, wraps.type, clean.method?_eq_some he hf]

-- The accessor and the mutator of a field are found when they are called on a wrapper.
theorem callMethod_pair (he : e ∈ c.entities) (hi : info ∈ e.fields)
    (wraps : m.Wraps a e.name r) (found : info.accessors? settings = some pair) :
    Exec.callMethod (c.program settings enums methods) call (.object a) info.accessor args m =
        call pair.accessor (some (.object a)) args m ∧
      Exec.callMethod (c.program settings enums methods) call (.object a) info.mutator args m =
        call pair.mutator (some (.object a)) args m := by
  obtain ⟨accessor, mutator⟩ := EntityFields.accessor_mem_functions methods hi found
  have proxied : info.isProxied := by
    by_contra h
    simp [FieldInfo.accessors?_eq_none h] at found
  obtain ⟨class_, hc⟩ := FieldInfo.isProxied_iff.1 proxied
  obtain ⟨pair', found', called, called', _⟩ :=
    FieldInfo.accessors?_of_backed hc ((clean.built.fields e he).backed info hi class_ hc)
  obtain rfl := Option.some.inj (found.symm.trans found')
  rw [← called, ← called']
  exact ⟨clean.callMethod_function he accessor wraps, clean.callMethod_function he mutator wraps⟩

theorem callMethod_accessors (he : e ∈ c.entities) (hi : info ∈ e.fields)
    (wraps : m.Wraps a e.name r) (found : info.accessors? settings = some pair) :
    (c.program settings enums methods).callMethod rounds (.object a) info.accessor args m =
        (c.program settings enums methods).invoke rounds Program.maxDepth pair.accessor
          (some (.object a)) args m ∧
      (c.program settings enums methods).callMethod rounds (.object a) info.mutator args m =
        (c.program settings enums methods).invoke rounds Program.maxDepth pair.mutator
          (some (.object a)) args m :=
  clean.callMethod_pair he hi wraps found

end Catalog.Clean

end

end FieldAccess
