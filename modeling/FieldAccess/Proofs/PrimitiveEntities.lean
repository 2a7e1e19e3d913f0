import FieldAccess.Proofs.InsertedCalls
import FieldAccess.Proofs.Mimics
import FieldAccess.Proofs.ReadTypes
import FieldAccess.Proofs.States
import FieldAccess.Proofs.UntouchedFields

namespace FieldAccess

-- The kind of field that is declared with a type.
def BasicKind.ofType? (type : TypeExpr) : Option BasicKind :=
  [int, string, bool].find? (·.type = type)

theorem BasicKind.ofType?_type (k : BasicKind) : ofType? k.type = some k := by
  cases k <;> rfl

-- Whether a field may hold a value, by its declared type.
def FieldInfo.holds (info : FieldInfo) (v : Value) : Bool :=
  (info.declaredType?.bind BasicKind.ofType?).any (·.holds v)

namespace FieldInfo.Stores

variable {info : FieldInfo} {k : BasicKind} (h : info.Stores k)

include h

theorem holds_eq (v : Value) : info.holds v = k.holds v := by
  rw [holds, h.declared, Option.bind_some, k.ofType?_type, Option.any_some]

theorem accessors : info.accessors? .standard = some (info.site.primitive k.getter k.type) := by
  obtain ⟨representation, access⟩ := h.access
  rw [accessors?, classification?, access]
  change info.declaredType?.map _ = _
  rw [h.declared]
  rfl

theorem enum?_eq_none : info.enum? = none := by
  obtain ⟨_, access⟩ := h.access
  rw [enum?, classification?, access]
  rfl

theorem target?_eq_none : info.classification?.bind (·.target?) = none := by
  obtain ⟨_, access⟩ := h.access
  rw [classification?, access]
  rfl

end FieldInfo.Stores

section

variable {c : Catalog} {enums : EnumTable} {methods : List FuncDecl} {info : FieldInfo}
  {k : BasicKind} {m : Machine} {w r : Nat} {entity name : String} {v : Value}

namespace Catalog.Clean

variable (clean : c.Clean .standard enums methods) (stores : c.Stores entity name info k)
  (wraps : m.Wraps w entity r) (rounds depth : Nat)

include clean stores wraps

theorem stored_read (held : (m.record r).data.get? info.key = some v) (kind : k.holds v = true) :
    Exec.callMethod (c.program .standard enums methods)
      ((c.program .standard enums methods).invoke rounds (depth + 1)) (.object w) info.accessor [] m =
        .ok [v] m := by
  obtain ⟨e, he, rfl, hi⟩ := Catalog.mem_of_field? stores.field
  rw [(clean.callMethod_pair he hi wraps stores.stores.accessors).1,
    AccessorSite.run_primitive_accessor]
  refine clean.getter_run wraps _ ?_ ?_ ?_
  · cases k <;> decide
  · cases k <;> decide
  · cases k <;> cases v <;> first
      | contradiction
      | (simp only [BasicKind.getter, Record.get?, held]; rfl)

theorem stored_write :
    Exec.callMethod (c.program .standard enums methods)
      ((c.program .standard enums methods).invoke rounds (depth + 1)) (.object w) info.mutator [v] m =
        .ok [] (m.store r info.key v) := by
  obtain ⟨e, he, rfl, hi⟩ := Catalog.mem_of_field? stores.field
  rw [(clean.callMethod_pair he hi wraps stores.stores.accessors).2,
    AccessorSite.run_primitive_mutator]
  exact Exec.bind_of_ok ((clean.callMethod_record wraps (by decide)).trans rfl) _

end Catalog.Clean

theorem Twin.Wraps.machine {t : Twin} (h : t.Wraps m) : m.Wraps t.wrapper t.entity t.record :=
  ⟨h.type, h.holds, h.record⟩

-- What is generated for a catalog reads and writes its fields.
theorem Catalog.Clean.serves (clean : c.Clean .standard enums methods) {S : Sides}
    (catalog : S.catalog = c) (target : S.target = c.program .standard enums methods)
    {rounds depth : Nat} (call : S.call = S.target.invoke rounds (depth + 1)) : S.Serves where
  read _ stores wraps held kind := by
    rw [call, target]
    exact clean.stored_read (catalog ▸ stores) wraps.machine rounds depth held kind
  write _ stores wraps := by
    rw [call, target]
    exact clean.stored_write (catalog ▸ stores) wraps.machine rounds depth

end

-- Runs on plain objects, and runs on wrappers with what was generated for their schema. Fields of
-- an entity are stored under keys of their own, and types start with the same values.
structure Sides.OfRun (S : Sides) (schema : Schema) (g : Generated) (rounds depth : Nat) : Prop where
  catalog : S.catalog = (Catalog.build schema .standard {}).value
  target : S.target = g.program
  call : S.call = S.target.invoke rounds (depth + 1)
  apart : Twin.Apart S.twins
  loose : S.loose = [] ∨ S.loose = S.twins
  keys : ∀ {t name₁ info₁ k₁ name₂ info₂ k₂}, t ∈ S.twins →
    S.catalog.Stores t.entity name₁ info₁ k₁ → S.catalog.Stores t.entity name₂ info₂ k₂ →
    info₁.key = info₂.key → name₁ = name₂
  zero : ∀ type, S.source.zero type = S.target.zero type

theorem Sides.OfRun.sound {S : Sides} {schema : Schema} {methods : List FuncDecl} {g : Generated}
    {rounds depth : Nat} (h : S.OfRun schema g rounds depth)
    (ok : (Run.ofSchema schema .standard methods).result = .ok g) : S.Sound where
  toServes := by
    obtain ⟨_, -, -, clean, rfl⟩ := Run.redirects_of_ok ok
    exact clean.serves h.catalog h.target h.call
  apart := h.apart
  loose := h.loose
  keys := h.keys
  zero := h.zero

-- A catalog of one entity, whose fields are all stored as they are, each under a key of its own.
structure Catalog.Primitive (c : Catalog) (e : EntityFields) : Prop where
  entities : c.entities = [e]
  stores : ∀ info ∈ e.fields, ∃ k, info.Stores k
  keys : ∀ info ∈ e.fields, ∀ info' ∈ e.fields, info.key = info'.key → info = info'

namespace EntityFields

variable (e : EntityFields)

-- Whether all fields of an object hold values of their declared types.
def inKind (object : Nat) (m : Machine) : Bool :=
  e.fields.all fun info => ((m.object object).fields.get? info.name).any info.holds

-- A method that uses its receiver for the fields of the entity, and for nothing else.
def usage (receiver : String) : Usage :=
  ⟨some receiver, true, fun x member => x = receiver ∧ (e.field? member).isSome⟩

-- A plain object, and a record behind a wrapper, with the same values in all fields.
structure Agree (object wrapper record : Nat) (m m' : Machine) : Prop where
  exist : object < m.objects.size
  wraps : m'.Wraps wrapper e.name record
  fields : ∀ info ∈ e.fields,
    (m'.record record).data.get? info.key = (m.object object).fields.get? info.name

end EntityFields

-- A method of an entity, with a receiver that no parameter hides.
structure FuncDecl.On (f : FuncDecl) (e : EntityFields) (receiver : Param) : Prop where
  declared : f.receiver = some receiver
  entity : f.receiverEntity? = some e.name
  named : receiver.name ≠ "_"
  params : ∀ p ∈ f.params, p.name ≠ receiver.name

-- Values that a caller may pass: numbers, texts, truth values, and slices of such.
inductive Value.IsArgument : Value → Prop
  | int (n : Int64) : IsArgument (.int n)
  | str (text : String) : IsArgument (.str text)
  | bool (b : Bool) : IsArgument (.bool b)
  | slice {vs : List Value} : (∀ v ∈ vs, IsArgument v) → IsArgument (.slice vs)

theorem Value.IsArgument.alike {v : Value} (h : v.IsArgument) (twins : List Twin)
    (maps : List (Nat × Nat)) : Value.Alike twins maps v v := by
  induction h with
  | int n => exact .int n
  | str text => exact .str text
  | bool b => exact .bool b
  | slice _ ih => exact .slice (Value.alikeItems_iff.2 (List.forall₂_same.2 ih))

-- Such a value has no other that is alike.
theorem Value.IsArgument.eq_of_alike {v v' : Value} (h : v.IsArgument) {twins : List Twin}
    {maps : List (Nat × Nat)} (alike : Value.Alike twins maps v v') : v' = v := by
  induction h generalizing v' with
  | int | str | bool =>
    cases alike
    rfl
  | slice elements ih =>
    obtain _ | _ | _ | _ | _ | items := alike
    rw [Value.alikeItems_iff] at items
    refine congrArg Value.slice ?_
    induction items with
    | nil => rfl
    | cons head _ rest =>
      obtain ⟨first, others⟩ := List.forall_mem_cons.1 ih
      rw [first head, rest (List.forall_mem_cons.1 elements).2 others]

section

variable {p : Program}

-- Where no type is defined, a type name says nothing.
theorem Program.zero_of_undefined (h : ∀ name, p.underlying? name = none) (type : TypeExpr) :
    p.zero type = (basicZero? type).getD .nil := by
  rw [zero]
  generalize p.declarations.length = steps
  unfold zeroWithin
  split
  case h_1 known => rw [known]; rfl
  case h_2 none => rw [none, h]; rfl
  case h_3 none => rw [none]; rfl

-- One function defines no type.
theorem Program.underlying?_func (f : FuncDecl) (name : String) :
    (⟨[.func f]⟩ : Program).underlying? name = none := rfl

theorem EnumTable.firstUses_eq_nil {t : EnumTable} {emitted : List String} {infos : List FieldInfo}
    (h : ∀ info ∈ infos, info.enum? = none) : t.firstUses emitted infos = [] := by
  induction infos with
  | nil => rfl
  | cons info rest ih =>
    obtain ⟨first, rest⟩ := List.forall_mem_cons.1 h
    rw [firstUses, first]
    exact ih rest

end

namespace Catalog.Primitive

variable {c : Catalog} {e : EntityFields} (primitive : c.Primitive e)

include primitive

theorem mem : e ∈ c.entities :=
  primitive.entities ▸ List.mem_singleton_self e

theorem field?_eq (name : String) : c.field? e.name name = e.field? name := by
  rw [Catalog.field?, Catalog.entity?, primitive.entities]
  simp

-- The fields that are stored are the ones of the entity.
theorem stores_iff {name : String} {info : FieldInfo} {k : BasicKind} :
    c.Stores e.name name info k ↔ e.field? name = some info ∧ info.Stores k :=
  ⟨fun h => ⟨primitive.field?_eq name ▸ h.field, h.stores⟩,
    fun h => ⟨(primitive.field?_eq name).trans h.1, h.2⟩⟩

-- What is generated defines no types.
theorem underlying?_eq_none (settings : Settings) (enums : EnumTable) (methods : List FuncDecl)
    (name : String) : (c.program settings enums methods).underlying? name = none := by
  refine Option.eq_none_iff_forall_not_mem.2 fun type defined => ?_
  have mem : Decl.defined name type ∈ c.declarations enums settings methods :=
    Program.defined_of_underlying? defined
  rw [Catalog.declarations, primitive.entities, Catalog.declarationsFrom,
    EnumTable.firstUses_eq_nil fun info hi => (primitive.stores info hi).choose_spec.enum?_eq_none]
      at mem
  simp [Catalog.declarationsFrom, Entity.wrapper] at mem

theorem hasEntity_iff {name : String} : c.hasEntity name ↔ name = e.name := by
  rw [Catalog.hasEntity, Catalog.entity?, primitive.entities, List.find?_isSome]
  simpa using eq_comm

-- Methods touch no other entity.
theorem redirectScope_eq {f : FuncDecl} (own : f.receiverEntity? = some e.name)
    (methods : MethodTable) : f.redirectScope c methods = .ok ⟨c, [e.name]⟩ := by
  have root : f.receiverEntity?.getD "" = e.name := by rw [own, Option.getD_some]
  have scope := @FuncDecl.redirectScope_alone f c methods e
  rw [root] at scope
  refine scope ?_ ?_ fun _ _ entity => primitive.hasEntity_iff.1 entity
  · rw [Catalog.entity?, primitive.entities]
    simp
  · have targets : e.relationTargets = [] := List.filterMap_eq_nil_iff.2 fun info hi =>
      (primitive.stores info hi).choose_spec.target?_eq_none
    simp [targets]

theorem zero_eq {source : Program} (undefined : ∀ name, source.underlying? name = none)
    (settings : Settings) (enums : EnumTable) (methods : List FuncDecl) (type : TypeExpr) :
    source.zero type = (c.program settings enums methods).zero type := by
  rw [Program.zero_of_undefined undefined,
    Program.zero_of_undefined (primitive.underlying?_eq_none settings enums methods)]

end Catalog.Primitive

-- Variables that are set one by one.
theorem ScopeAlike.ofList {S : Sides} {N : List String} {maps : List (Nat × Nat)}
    {entries entries' : List (String × Value)}
    (h : List.Forall₂ (fun a b => a.1 = b.1 ∧ Value.Alike (S.seen a.1) maps a.2 b.2) entries entries') :
    ScopeAlike S N maps (.ofList entries) (.ofList entries') := by
  suffices ∀ t t', ScopeAlike S N maps t t' → ScopeAlike S N maps
      (entries.foldl (fun t entry => t.insert entry.1 entry.2) t)
      (entries'.foldl (fun t entry => t.insert entry.1 entry.2) t') from this _ _ .empty
  induction h with
  | nil => exact fun _ _ h => h
  | @cons a b _ _ head _ ih =>
    intro t t' h
    obtain ⟨x, v⟩ := a
    obtain ⟨_, v'⟩ := b
    obtain ⟨rfl, alike⟩ := head
    exact ih _ _ (h.insert alike)

namespace EntityFields

variable {e : EntityFields} {c : Catalog} {o w r rounds : Nat} {x : String} {m m' : Machine}
  {source target : Program}

-- Runs of a method on an object and on the wrapper that stands for it.
def sides (e : EntityFields) (c : Catalog) (source target : Program) (rounds : Nat) (x : String)
    (o w r : Nat) : Sides where
  catalog := c
  source
  target
  twins := [⟨e.name, o, w, r⟩]
  loose := []
  receiver := some x
  call := target.invoke rounds 255

section

variable (primitive : c.Primitive e)

include primitive

theorem inKind_sides (h : e.inKind o m = true) : (e.sides c source target rounds x o w r).InKind m := by
  intro t ht name info k stored
  obtain rfl := List.mem_singleton.1 ht
  obtain ⟨found, stores⟩ := primitive.stores_iff.1 stored
  have kinds := List.all_eq_true.1 h info (List.mem_of_find?_eq_some found)
  obtain ⟨v, held, kind⟩ := (Option.any_eq_true ..).1 kinds
  obtain rfl : info.name = name := by simpa using List.find?_some found
  exact ⟨v, held, stores.holds_eq v ▸ kind⟩

theorem sides_ofRun {schema : Schema} {f : List FuncDecl} {g : Generated}
    (ok : (Run.ofSchema schema .standard f).result = .ok g)
    (catalog : c = (Catalog.build schema .standard {}).value)
    (undefined : ∀ name, source.underlying? name = none) :
    (e.sides c source g.program rounds x o w r).OfRun schema g rounds 254 where
  catalog := catalog
  target := rfl
  call := rfl
  apart := by
    intro t ht u hu _
    rw [List.mem_singleton.1 ht, List.mem_singleton.1 hu]
  loose := .inl rfl
  keys := by
    intro t name₁ info₁ k₁ name₂ info₂ k₂ ht stored₁ stored₂ same
    obtain rfl := List.mem_singleton.1 ht
    have found₁ := (primitive.stores_iff.1 stored₁).1
    have found₂ := (primitive.stores_iff.1 stored₂).1
    obtain rfl := primitive.keys _ (List.mem_of_find?_eq_some found₁) _
      (List.mem_of_find?_eq_some found₂) same
    exact (Catalog.name_of_field? stored₁.field).symm.trans (Catalog.name_of_field? stored₂.field)
  zero type := by
    obtain ⟨redirected, -, -, -, rfl⟩ := Run.redirects_of_ok ok
    subst catalog
    exact primitive.zero_eq undefined .standard _ redirected type

-- What the receiver is used for, it is known for.
theorem usage_agrees {f : FuncDecl} {param : Param} (on : f.On e param) {methods : MethodTable}
    {context : RedirectContext} (scope : f.redirectScope c methods = .ok context.scope)
    (N : List String) (fr fr' : Frame) (m : Machine) :
    (e.usage param.name).Agrees context (TypeContext.ofMethod c methods f.expand)
      ((e.sides c source target rounds param.name o w r).view N fr fr' m) where
  receiver := rfl
  strays _ := rfl
  field {y member} denotes := by
    obtain ⟨rfl, found⟩ := denotes
    obtain ⟨info, found⟩ := Option.isSome_iff_exists.1 found
    obtain ⟨k, stores⟩ := primitive.stores info (List.mem_of_find?_eq_some found)
    have stored := primitive.stores_iff.2 ⟨found, stores⟩
    have named : param.type.namedTarget? = some e.name := by
      have own := on.entity
      rwa [FuncDecl.receiverEntity?, on.declared] at own
    refine ⟨param.type, e.name, info, k, ?_, stored, fun span => ?_, fun t ht _ => ?_⟩
    · have bound : TypeContext.ofMethod c methods f.expand =
          ((⟨c, methods, []⟩ : TypeContext).bind ⟨param.name, some param.type⟩).bindAll
            (f.params.map fun p => ⟨p.name, some p.type⟩) := by
        rw [TypeContext.ofMethod, TypeContext.parameterBindings,
          show f.expand.receiver = some param from on.declared]
        rfl
      rw [bound, TypeContext.lookup?_bindAll_ne, TypeContext.lookup?_bind _ on.named]
      exact List.forall_mem_map.2 fun p hp => .inr (on.params p hp)
    · have own : context.scope = ⟨c, [e.name]⟩ :=
        Except.ok.inj (scope.symm.trans (primitive.redirectScope_eq on.entity methods))
      obtain ⟨_, access⟩ := stores.access
      have resolved := Visit.resolve_of_mem (v := ⟨_, .read, span, .ident span param.name, member⟩)
        (b := ⟨.ident span param.name, some (.known param.type)⟩) (congrArg (·.catalog) own)
        (TypeContext.ofMethod_catalog c methods f.expand) rfl named stored.field
        (own ▸ List.mem_singleton_self e.name)
      rwa [access] at resolved
    · have twin : t ∈ [(⟨e.name, o, w, r⟩ : Twin)] := by
        simpa [Sides.seen, Sides.view, sides] using ht
      rw [List.mem_singleton.1 twin]

-- Where a call begins.
theorem agree_sync {f f' : FuncDecl} {param : Param} {args : List Value} (agree : e.Agree o w r m m')
    (kinds : e.inKind o m = true) (globals : m.globals = .empty) (globals' : m'.globals = .empty)
    (on : f.On e param) (header : f'.receiver = f.receiver ∧ f'.params = f.params)
    (arguments : ∀ v ∈ args, v.IsArgument) (N : List String) :
    Sync (e.sides c source target rounds param.name o w r) N 0 []
      (.ofTable (Program.parameters f (some (.object o)) args)) m
      (.ofTable (Program.parameters f' (some (.object w)) args)) m' where
  globals := by
    rw [globals, globals']
    exact .empty
  tables := .nil
  mirrored t ht := by
    obtain rfl := List.mem_singleton.1 ht
    have wraps := agree.wraps
    refine ⟨⟨wraps.lt_size, wraps.exist, wraps.type, wraps.holds⟩, agree.exist, ?_⟩
    intro name info k stored
    have found := (primitive.stores_iff.1 stored).1
    have mem := List.mem_of_find?_eq_some found
    obtain rfl : info.name = name := by simpa using List.find?_some found
    obtain ⟨v, held, kind⟩ :=
      inKind_sides (o := o) (w := w) (r := r) primitive kinds _ (List.mem_singleton_self _) stored
    have same := (agree.fields info mem).trans held
    rw [held, same]
    exact .some (.of_isAtom (BasicKind.isAtom_of_holds kind))
  scopes := by
    refine .cons (.ofList ?_) .nil
    obtain ⟨receiver, params⟩ := header
    rw [receiver, params, on.declared]
    refine .cons ⟨rfl, ?_⟩ (List.forall₂_same.2 fun entry mem => ⟨rfl, ?_⟩)
    · have seen : (e.sides c source target rounds param.name o w r).seen param.name =
          [⟨e.name, o, w, r⟩] := if_pos rfl
      exact seen ▸ .object (List.mem_singleton_self (⟨e.name, o, w, r⟩ : Twin))
    · obtain ⟨⟨p, v⟩, paired, rfl⟩ := List.mem_map.1 mem
      obtain ⟨hp, hv⟩ := List.of_mem_zip paired
      exact (arguments v hv).alike _ _
  inKind := inKind_sides primitive kinds
  depth := rfl

-- Where states correspond, the fields agree.
theorem states_agree {enums : EnumTable} (built : Catalog.EntitiesBuilt .standard enums c.entities)
    {N : List String} {maps : List (Nat × Nat)} {fr fr' : Frame}
    (states : States (e.sides c source target rounds x o w r) N maps fr m fr' m')
    (kinds : (e.sides c source target rounds x o w r).InKind m) : e.Agree o w r m m' := by
  have twin := List.mem_singleton_self (⟨e.name, o, w, r⟩ : Twin)
  have mirrored := states.mirrored _ twin
  refine ⟨mirrored.object, mirrored.toWraps.machine, fun info hi => ?_⟩
  obtain ⟨k, stores⟩ := primitive.stores info hi
  have stored : c.Stores e.name info.name info k :=
    ⟨Catalog.field?_of_mem built primitive.mem hi, stores⟩
  obtain ⟨v, held, kind⟩ := kinds _ twin stored
  have rel := mirrored.data stored
  rw [held] at rel ⊢
  cases held' : (m'.record r).data.get? info.key with
  | none =>
    rw [held'] at rel
    cases rel
  | some v' =>
    rw [held', Option.rel_some_some] at rel
    rw [rel.eq_of_isAtom (BasicKind.isAtom_of_holds kind)]

end

end EntityFields

-- Whether a run ends as it should.
def Exec.endsWith {α : Type} (x : Exec α) (m : Machine) (P : α → Machine → Bool) : Bool :=
  match x m with
  | .ok a m₁ => P a m₁
  | .error _ _ => false

theorem Exec.exists_of_endsWith {α : Type} {x : Exec α} {m : Machine} {P : α → Machine → Bool}
    (h : x.endsWith m P = true) : ∃ a m₁, x m = .ok a m₁ ∧ P a m₁ = true := by
  unfold endsWith at h
  split at h
  case h_1 a m₁ run => exact ⟨a, m₁, run, h⟩
  case h_2 => cases h

theorem Value.eq_of_keys {vs : List Value} {k : MapKey} (h : vs.map (·.key?) = [some k]) :
    vs = [k.toValue] := by
  obtain ⟨v, rfl, held⟩ := List.map_eq_singleton_iff.1 h
  rw [Value.toValue_of_key? held]

def flaggedSchema : Schema where
  entities :=
    [{ name := "Order"
       collection := some "orders"
       fields := [{ name := "total", type := "int" }, { name := "flag", type := "bool" }] }]

def flaggedOrder : EntityFields where
  entity :=
    { name := "Order"
      collection := some "orders"
      fields := [{ name := "total", type := "int" }, { name := "flag", type := "bool" }] }
  fields :=
    [⟨"Order", { name := "total", type := "int" }, .proxied (.primitive "int" "GetInt")⟩,
     ⟨"Order", { name := "flag", type := "bool" }, .proxied (.primitive "bool" "GetBool")⟩]

theorem build_flaggedSchema : (Catalog.build flaggedSchema .standard {}).value = ⟨[flaggedOrder]⟩ := by
  decide +kernel

theorem flaggedOrder_primitive : (⟨[flaggedOrder]⟩ : Catalog).Primitive flaggedOrder where
  entities := rfl
  stores := by
    refine List.forall_mem_cons.2 ⟨⟨.int, ⟨"int", rfl⟩, by decide +kernel⟩, ?_⟩
    exact List.forall_mem_singleton.2 ⟨.bool, ⟨"bool", rfl⟩, by decide +kernel⟩
  keys := by decide

-- An order, and the record that stores it.
def flaggedObject (total : Int64) (flag : Bool) : Machine where
  objects := #[⟨"Order", .ofList [("total", .int total), ("flag", .bool flag)]⟩]

def flaggedRecord (total : Int64) (flag : Bool) : Machine where
  records := #[⟨"", "orders", .ofList [("total", .int total), ("flag", .bool flag)], .empty⟩]
  objects := #[⟨"Order", .ofList [(recordField, .record 0)]⟩]

theorem flaggedOrder_agree (total : Int64) (flag : Bool) :
    flaggedOrder.Agree 0 0 0 (flaggedObject total flag) (flaggedRecord total flag) where
  exist := Nat.zero_lt_one
  wraps := ⟨rfl, rfl, Nat.zero_lt_one⟩
  fields := List.forall_mem_cons.2 ⟨rfl, List.forall_mem_singleton.2 rfl⟩

-- A method of orders that is called with a list of numbers.
def flaggedMethod (name : String) (statements : List Stmt) : FuncDecl where
  doc := none
  receiver := some ⟨"o", .pointer (.named "Order")⟩
  name
  typeParams := []
  params := [⟨"xs", .slice .int⟩]
  results := []
  body := .mk .nowhere statements
  span := .nowhere

def flaggedField (name : String) : Expr :=
  .select .nowhere (.ident .nowhere "o") name

end FieldAccess
