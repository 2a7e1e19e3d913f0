import FieldAccess.Proofs.SettledValues
import FieldAccess.Proofs.WriteChecks

namespace FieldAccess

-- The type with integers in the place of a named type.
def TypeExpr.withIntegers (name : String) : TypeExpr → TypeExpr
  | .named n => if n = name then .int else .named n
  | .pointer inner => .pointer (inner.withIntegers name)
  | .slice element => .slice (element.withIntegers name)
  | .map key value => .map (key.withIntegers name) (value.withIntegers name)
  | .approx inner => .approx (inner.withIntegers name)

-- Pointers to wrappers, one or many.
def TypeExpr.holdsPointers : TypeExpr → Bool
  | .pointer (.named _) | .slice (.pointer (.named _)) => true
  | _ => false

namespace FieldInfo

-- The type with integers in the place of the field's options.
def represented (info : FieldInfo) (type : TypeExpr) : TypeExpr :=
  info.enum?.elim type type.withIntegers

-- The field is a relation that is declared without a pointer.
def IsBare (info : FieldInfo) : Prop :=
  ∃ multiplicity target, info.classification? = some (.relation multiplicity target) ∧
    (info.declaredType? = some (.named target) ∨ info.declaredType? = some (.slice (.named target)))

variable {settings : Settings} {enums : EnumTable} {info : FieldInfo} {class_ : Classification}

-- A relation is declared with or without a pointer.
theorem Backed.declared_relation {multiplicity : Multiplicity} {target : String}
    (backed : info.Backed settings enums (.relation multiplicity target)) :
    match multiplicity with
    | .single => info.declaredType? = some (.named target) ∨
        info.declaredType? = some (.pointer (.named target))
    | .multi => info.declaredType? = some (.slice (.named target)) ∨
        info.declaredType? = some (.slice (.pointer (.named target))) := by
  cases backed with
  | @relation _ _ type parsed shape =>
    have declared : info.declaredType? = some type := by
      rw [declaredType?, parsed]
      rfl
    rw [declared]
    unfold Field.relation? at shape
    split at shape <;> cases shape
    · exact .inl rfl
    · exact .inr rfl
    · exact .inl rfl
    · exact .inr rfl

-- What the accessor gives, and what the field is declared as.
theorem Backed.exists_result (backed : info.Backed settings enums class_)
    (classified : info.classification? = some class_) :
    ∃ pair result type, info.accessors? settings = some pair ∧ pair.accessor.results = [result] ∧
      info.declaredType? = some type ∧ (type = info.represented result ↔ ¬info.IsBare) := by
  rcases class_ with ⟨representation, getter⟩ | ⟨_ | _, target⟩ | ⟨_ | _, enum⟩
  · obtain ⟨type, declared⟩ := backed.declaredType?_isSome
    refine ⟨_, type, type, by rw [accessors?, classified, Option.bind_some, declared]; rfl, rfl,
      declared, ?_⟩
    simp [represented, enum?, classified, Classification.enum?, IsBare]
  · rcases backed.declared_relation with declared | declared
    all_goals
      refine ⟨_, _, _, by rw [accessors?, classified]; rfl, rfl, declared, ?_⟩
      simp [represented, enum?, classified, Classification.enum?, IsBare, declared]
  · rcases backed.declared_relation with declared | declared
    all_goals
      refine ⟨_, _, _, by rw [accessors?, classified]; rfl, rfl, declared, ?_⟩
      simp [represented, enum?, classified, Classification.enum?, IsBare, declared]
  · refine ⟨_, _, _, by rw [accessors?, classified]; rfl, rfl, backed.declaredType?_single, ?_⟩
    simp [represented, enum?, classified, Classification.enum?, IsBare, TypeExpr.withIntegers]
  · refine ⟨_, _, _, by rw [accessors?, classified]; rfl, rfl, backed.declaredType?_multi, ?_⟩
    simp [represented, enum?, classified, Classification.enum?, IsBare, TypeExpr.withIntegers]

-- The accessor of an enumeration gives an option or a list of options.
theorem results_of_enum? {pair : AccessorPair} {enum : String} (converts : info.enum? = some enum)
    (made : info.accessors? settings = some pair) :
    pair.accessor.results = [.named enum] ∨ pair.accessor.results = [.slice (.named enum)] := by
  obtain ⟨class_, classified, made⟩ := Option.bind_eq_some_iff.1 made
  rw [enum?, classified] at converts
  rcases class_ with _ | _ | ⟨_ | _, _⟩ <;> cases converts
  · exact .inl (by rw [← Option.some.inj made]; rfl)
  · exact .inr (by rw [← Option.some.inj made]; rfl)

-- A field takes what is read from it, unless it is a relation without a pointer.
theorem Backed.takes_declared_iff {type : TypeExpr} (backed : info.Backed settings enums class_)
    (classified : info.classification? = some class_) (declared : info.declaredType? = some type) :
    info.Fits type ∨ info.OptionOfMany type ↔ ¬info.IsBare := by
  rw [Fits, OptionOfMany, IsBare, classified]
  rcases class_ with _ | ⟨_ | _, target⟩ | ⟨_ | _, _⟩
  · simp [declared]
  · have is := backed.declared_relation
    rw [declared] at is ⊢
    rcases is with is | is <;> simp_all
  · have is := backed.declared_relation
    rw [declared] at is ⊢
    rcases is with is | is <;> simp_all
  · simp [Option.some.inj (declared.symm.trans backed.declaredType?_single)]
  · simp [Option.some.inj (declared.symm.trans backed.declaredType?_multi)]

-- A relation without a pointer takes pointers all the same.
theorem IsBare.holdsPointers {type : TypeExpr} (bare : info.IsBare)
    (takes : info.Fits type ∨ info.OptionOfMany type) : type.holdsPointers := by
  obtain ⟨multiplicity, target, classified, -⟩ := bare
  rw [Fits, OptionOfMany, classified] at takes
  rcases takes with fits | ⟨_, other, _⟩
  · cases multiplicity <;> obtain rfl := fits <;> rfl
  · cases other

theorem IsBare.not_holdsPointers {type : TypeExpr} (bare : info.IsBare)
    (declared : info.declaredType? = some type) : ¬type.holdsPointers := by
  obtain ⟨_, _, -, is | is⟩ := bare <;> cases declared.symm.trans is <;> exact Bool.false_ne_true

-- A field that is declared with pointers takes nothing else.
theorem Backed.holdsPointers {type type' : TypeExpr} (backed : info.Backed settings enums class_)
    (classified : info.classification? = some class_) (declared : info.declaredType? = some type)
    (pointers : type.holdsPointers) (takes : info.Fits type' ∨ info.OptionOfMany type') :
    type'.holdsPointers := by
  rw [Fits, OptionOfMany, classified] at takes
  rcases class_ with _ | ⟨_ | _, target⟩ | ⟨_ | _, _⟩
  · simp only [declared] at takes
    rcases takes with (same | any) | ⟨_, other, _⟩
    · cases same
      exact pointers
    · cases any
      cases pointers
    · cases other
  · rcases takes with rfl | ⟨_, other, _⟩
    · rfl
    · cases other
  · rcases takes with rfl | ⟨_, other, _⟩
    · rfl
    · cases other
  · cases declared.symm.trans backed.declaredType?_single
    cases pointers
  · cases declared.symm.trans backed.declaredType?_multi
    cases pointers

-- The accessors of two fields give the same type, and both are enumerations or neither is. A type with
-- a getter of its own may be called like an enumeration, and is not declared as integers.
structure SameResult (settings : Settings) (info info' : FieldInfo) : Prop where
  results : ∃ pair pair', info.accessors? settings = some pair ∧
    info'.accessors? settings = some pair' ∧ pair.accessor.results = pair'.accessor.results
  kinds : info.enum?.isSome = info'.enum?.isSome

theorem SameResult.enum?_eq {info' : FieldInfo} (h : info.SameResult settings info') :
    info.enum? = info'.enum? := by
  obtain ⟨⟨pair, pair', made, made', same⟩, kinds⟩ := h
  cases converts : info.enum? with
  | none =>
    rw [converts] at kinds
    exact (Option.isSome_eq_false_iff.1 kinds.symm |> Option.isNone_iff_eq_none.1).symm
  | some enum =>
    rw [converts] at kinds
    obtain ⟨enum', converts'⟩ := Option.isSome_iff_exists.1 kinds.symm
    have gives := results_of_enum? converts made
    have gives' := results_of_enum? converts' made'
    rw [same] at gives
    rw [converts']
    rcases gives with gives | gives <;> rcases gives' with gives' | gives' <;>
      cases gives.symm.trans gives'
    · rfl
    · rfl

-- What two such fields are declared as is the same.
theorem SameResult.declared_eq {info' : FieldInfo} {class' : Classification}
    (h : info.SameResult settings info') (backed : info.Backed settings enums class_)
    (classified : info.classification? = some class_)
    (backed' : info'.Backed settings enums class')
    (classified' : info'.classification? = some class') (pointed : ¬info.IsBare)
    (pointed' : ¬info'.IsBare) : info.declaredType? = info'.declaredType? := by
  obtain ⟨pair, result, type, made, gives, declared, iff⟩ := backed.exists_result classified
  obtain ⟨pair', result', type', made', gives', declared', iff'⟩ :=
    backed'.exists_result classified'
  obtain ⟨_, _, made₁, made₁', same⟩ := h.results
  obtain rfl := Option.some.inj (made.symm.trans made₁)
  obtain rfl := Option.some.inj (made'.symm.trans made₁')
  obtain rfl : result = result' := by simpa [gives, gives'] using same
  have represents : info.represented result = info'.represented result := by
    rw [represented, represented, h.enum?_eq]
  rw [declared, declared', iff.2 pointed, iff'.2 pointed', represents]

-- Primitive fields of one type are such fields.
theorem sameResult_of_primitive {info' : FieldInfo} {representation representation' : String}
    {getter getter' : String} {type : TypeExpr} (settings : Settings)
    (classified : info.classification? = some (.primitive representation getter))
    (classified' : info'.classification? = some (.primitive representation' getter'))
    (declared : info.declaredType? = some type) (declared' : info'.declaredType? = some type) :
    info.SameResult settings info' where
  results := by
    refine ⟨AccessorSite.primitive ⟨info, settings⟩ getter type,
      AccessorSite.primitive ⟨info', settings⟩ getter' type, ?_, ?_, rfl⟩
    · rw [accessors?, classified, Option.bind_some, declared]
      rfl
    · rw [accessors?, classified', Option.bind_some, declared']
      rfl
  kinds := by simp [enum?, classified, classified', Classification.enum?]

end FieldInfo

theorem find?_of_nodup {α : Type} {f : α → String} {l : List α} {a : α}
    (distinct : (l.map f).Nodup) (mem : a ∈ l) : l.find? (f · = f a) = some a := by
  induction l with
  | nil => cases mem
  | cons b l ih =>
    obtain ⟨new, distinct⟩ := List.nodup_cons.1 distinct
    rcases List.mem_cons.1 mem with rfl | mem
    · simp
    · have other : f b ≠ f a := fun same => new (same ▸ List.mem_map_of_mem mem)
      rw [List.find?_cons_of_neg (by simpa using other)]
      exact ih distinct mem

-- A field of a catalog is found under its name and that of its entity.
theorem Catalog.field?_of_mem {settings : Settings} {enums : EnumTable} {c : Catalog}
    {e : EntityFields} {info : FieldInfo} (built : EntitiesBuilt settings enums c.entities)
    (he : e ∈ c.entities) (hi : info ∈ e.fields) : c.field? e.name info.name = some info := by
  have entity : c.entity? e.name = some e := find?_of_nodup built.distinct he
  rw [field?, entity]
  exact find?_of_nodup (built.fields e he).distinct hi

namespace RedirectContext

variable {r : RedirectContext} {c : TypeContext} {span : Span} {temps : Temporaries}

-- The field is found on a base of a type that names its entity.
theorem typeOf?_field {x : Expr} {type : TypeExpr} {info : FieldInfo}
    (found : c.catalog.field? info.entity info.name = some info)
    (is : c.typeOf? x = some (.known type)) (named : type.namedTarget? = some info.entity) :
    c.typeOf? (.select span x info.name) = info.declaredType?.map .known := by
  simp [TypeContext.typeOf?, is, TypeContext.entityOf?_known named found, found]

theorem value_selector {x : Expr} {b : TypedExpr} {type : TypeExpr} {info : FieldInfo}
    (hr : r.scope.catalog = c.catalog)
    (found : c.catalog.field? info.entity info.name = some info) (proxied : info.isProxied)
    (listed : info.entity ∈ r.scope.entities) (source : r.value c x = .ok b)
    (is : b.type = some (.known type)) (named : type.namedTarget? = some info.entity) :
    r.value c (.select span x info.name) = .ok (info.read b.expr span) :=
  Visit.replaced_of_mem (v := ⟨c, .read, span, x, info.name⟩) hr rfl source is named found listed
    proxied

-- A read of the field has the type, on any base that refers to its entity, and becomes a call of the
-- function, which is taken to give the type as well.
def ReadsAs (r : RedirectContext) (c : TypeContext) (info : FieldInfo) (f : FuncDecl)
    (type : TypeExpr) : Prop :=
  ∀ x base span, c.typeOf? x = some (.known base) → base.namedTarget? = some info.entity →
    c.typeOf? (.select span x info.name) = some (.known type) ∧
    ∀ b, info.entity ∈ r.scope.entities → r.value c x = .ok b →
      r.value c (.select span x info.name) =
        .ok ⟨.call span (.select span b.expr f.name) [] [], some (.known type)⟩

theorem readsAs_of_declared {info : FieldInfo} {f : FuncDecl} {type : TypeExpr}
    (hr : r.scope.catalog = c.catalog)
    (found : c.catalog.field? info.entity info.name = some info) (proxied : info.isProxied)
    (declared : info.declaredType? = some type) (called : f.name = info.accessor) :
    r.ReadsAs c info f type := by
  refine fun x base span is named => ⟨?_, fun b listed source => ?_⟩
  · rw [typeOf?_field found is named, declared]
    rfl
  · have known := (value_type hr x b source).trans is
    rw [value_selector hr found proxied listed source known named, FieldInfo.read, declared, called]
    rfl

end RedirectContext

-- The error says that a value does not suit its field.
def RedirectError.IsMismatch (e : RedirectError) : Prop :=
  ∃ entity field expected found, e.fault = .typeMismatch entity field expected found

namespace RedirectContext

section

variable {σ : Type} [TypeOracle σ] {r : RedirectContext} {o : σ} {span : Span}

theorem relocate_error {place : Header} {p : AssignPlan} {err : RedirectError}
    (h : r.relocate place span p = .error err) : ¬err.IsMismatch := by
  rintro ⟨_, _, _, _, mismatch⟩
  unfold relocate at h
  split at h
  case isTrue => cases h
  case isFalse =>
    split at h
    case h_1 =>
      cases h
      cases mismatch
    case h_2 => split at h <;> cases h
    all_goals cases h

-- The values of the statement suit what it writes: it is accepted in a block, and in a header only
-- its place may be wrong.
structure Accepts (r : RedirectContext) (o : σ) (temps : Temporaries) (s : Stmt) : Prop where
  inBlock : ∀ elseIf, ∃ out, r.stmt o elseIf s temps = .ok out
  inHeader : ∀ place err, r.header o place (some s) temps = .error err → ¬err.IsMismatch

theorem accepts_assign {written values : List Expr} {ts : List Target} {vs : List TypedExpr}
    (targets : r.targets o written = .ok ts) (sources : r.values o values = .ok vs)
    (checked : ∀ receiver info v, (.field receiver info, v) ∈ ts.zip vs →
      r.checkWrite info v.type span = .ok ())
    (temps : Temporaries) : Accepts r o temps (.assign span written .assign values) := by
  have passed : r.checkWrites span ts vs = .ok () := by
    refine (r.checkWrites_ok_or span ts vs).resolve_right ?_
    rintro ⟨⟨t, v⟩, mem, e, mismatch, -⟩
    cases t with
    | plain | blank => cases mismatch
    | field receiver info =>
      cases (checked receiver info v mem).symm.trans (checkWrite_of_mismatch mismatch)
  obtain ⟨inBlock, inHeader⟩ := planned_of_expand (r := r) (o := o)
    (s := .assign span written .assign values) rfl
  obtain ⟨⟨p, temps'⟩, planned⟩ := planAssign_ok targets sources (fun _ => passed) temps
  refine ⟨fun elseIf => ⟨(p.statements, temps'), ?_⟩, fun place err refused => ?_⟩
  · rw [inBlock]
    exact Redirecting.bind_of_ok planned _
  · rw [inHeader, Redirecting.bind_of_ok planned] at refused
    exact relocate_error (Redirecting.error_lift.1 refused)

-- A value does not suit what the statement writes: it is refused wherever it stands.
def Rejects (r : RedirectContext) (o : σ) (temps : Temporaries) (s : Stmt) : Prop :=
  ∃ err, err.IsMismatch ∧ (∀ elseIf, r.stmt o elseIf s temps = .error err) ∧
    ∀ place, r.header o place (some s) temps = .error err

theorem Mismatch.isMismatch {t : Target} {type : Option StaticType} {err : RedirectError}
    (h : Mismatch r span t type err) : err.IsMismatch := by
  cases h
  exact ⟨_, _, _, _, rfl⟩

theorem rejects_assign {written values : List Expr} {ts : List Target} {vs : List TypedExpr}
    {receiver : Expr} {info : FieldInfo} {v : TypedExpr} (targets : r.targets o written = .ok ts)
    (sources : r.values o values = .ok vs) (paired : written.length = values.length)
    (mem : (.field receiver info, v) ∈ ts.zip vs)
    (refused : r.checkWrite info v.type span ≠ .ok ()) (temps : Temporaries) :
    Rejects r o temps (.assign span written .assign values) := by
  have assigns : Assigns r o span temps (.assign span written .assign values) (ts.zip vs) :=
    .each rfl paired targets sources
  obtain ⟨_, _, err, mismatch, everywhere⟩ := assigns.refused mem refused
  exact ⟨err, mismatch.isMismatch, everywhere⟩

-- A field that is written can be read, and has the type that it is declared with.
theorem value_of_target {receiver : Expr} {info : FieldInfo} :
    (e : Expr) → r.target o e = .ok (.field receiver info) →
      ∃ v, r.value o e = .ok v ∧ v.type = info.declaredType?.map .known
  | .paren at_ inner, h => by
    obtain ⟨v, source, is⟩ := value_of_target inner h
    refine ⟨⟨.paren at_ v.expr, v.type⟩, ?_, is⟩
    rw [value, source]
    rfl
  | .select at_ base member, h => by
    simp only [target, ok_bind] at h
    obtain ⟨b, source, res, resolved, h⟩ := h
    cases res with
    | direct | other => cases h
    | proxied =>
      cases h
      refine ⟨info.read b.expr at_, ?_, rfl⟩
      simp only [value, ok_bind]
      exact ⟨b, source, _, resolved, rfl⟩
  | .ident _ _, h => by
    rw [target] at h
    split at h <;> cases h
  | .literal _ _, h | .typeOperand _ _, h | .call _ _ _ _, h | .index _ _ _, h
  | .binary _ _ _ _, h | .unary _ _ _, h | .composite _ _ _, h => by
    simp only [target, ok_bind] at h
    obtain ⟨_, _, h⟩ := h
    cases h

-- What a member denotes does not depend on where it is written.
theorem resolve_at {base : Option StaticType} {member : String} {res : Resolution}
    (h : r.resolve o base member span = .ok res) (at_ : Span) :
    r.resolve o base member at_ = .ok res := by
  simp only [resolve] at h ⊢
  split at h
  · exact h
  · split at h
    · exact h
    · split at h
      case isTrue field =>
        rw [if_pos field]
        split at h
        · exact h
        · exact h
        · cases h
      case isFalse noField => rwa [if_neg noField]

end

end RedirectContext

-- A name, and members of it one after another. It may be written more than once.
inductive Expr.Chain (root : String) : List String → Expr → Prop
  | root {span : Span} : Chain root [] (.ident span root)
  | member {span : Span} {members : List String} {e : Expr} {member : String} :
      Chain root members e → Chain root (members ++ [member]) (.select span e member)
  | paren {span : Span} {members : List String} {e : Expr} :
      Chain root members e → Chain root members (.paren span e)

namespace TypeContext

-- The type of a member on a base of the given type.
def memberType? (c : TypeContext) (base : Option StaticType) (member : String) :
    Option StaticType := do
  let entity ← c.entityOf? (← base)
  (← c.catalog.field? entity member).declaredType?.map .known

def chainType? (c : TypeContext) (root : String) (members : List String) : Option StaticType :=
  members.foldl c.memberType? ((c.lookup? root).map .known)

theorem typeOf?_chain {c : TypeContext} {root : String} {members : List String} {e : Expr}
    (chain : e.Chain root members) : c.typeOf? e = c.chainType? root members := by
  induction chain with
  | root => rfl
  | member _ ih => rw [typeOf?, chainType?, List.foldl_append, ← chainType?, ← ih]; rfl
  | paren _ ih => rw [typeOf?, ih]

end TypeContext

namespace RedirectContext

variable {r : RedirectContext} {c : TypeContext} {span : Span} {temps : Temporaries}
  {root : String} {members : List String} {e e' : Expr}

-- No member on the way is a field without an accessor.
def Readable (r : RedirectContext) (c : TypeContext) (root : String) (members : List String) :
    Prop :=
  ∀ init member, init ++ [member] <+: members →
    ∃ res, r.resolve c (c.chainType? root init) member .nowhere = .ok res

theorem readable_concat {member : String} :
    r.Readable c root (members ++ [member]) ↔ r.Readable c root members ∧
      ∃ res, r.resolve c (c.chainType? root members) member .nowhere = .ok res := by
  simp only [Readable, List.prefix_concat_iff]
  constructor
  · exact fun all => ⟨fun init m h => all init m (.inr h), all members member (.inl rfl)⟩
  · rintro ⟨before, last⟩ init m (same | h)
    · obtain ⟨rfl, rfl⟩ := List.append_singleton_inj.1 same
      exact last
    · exact before init m h

theorem value_chain_iff (hr : r.scope.catalog = c.catalog) (chain : e.Chain root members) :
    (∃ v, r.value c e = .ok v) ↔ r.Readable c root members := by
  induction chain with
  | @root at_ =>
    refine iff_of_true ⟨⟨_, _⟩, by rw [value]; rfl⟩ fun init member h => ?_
    simp at h
  | @member at_ members base member chain ih =>
    rw [readable_concat, ← ih]
    simp only [value, ok_bind]
    constructor
    · rintro ⟨_, b, source, res, resolved, _⟩
      rw [value_type hr base b source, TypeContext.typeOf?_chain chain] at resolved
      exact ⟨⟨b, source⟩, res, resolve_at resolved .nowhere⟩
    · rintro ⟨⟨b, source⟩, res, resolved⟩
      rw [← TypeContext.typeOf?_chain chain, ← value_type hr base b source] at resolved
      cases res with
      | proxied | direct | other => exact ⟨_, b, source, _, resolve_at resolved at_, rfl⟩
  | @paren at_ members inner _ ih =>
    rw [← ih]
    simp only [value, ok_bind]
    constructor
    · rintro ⟨_, b, source, _⟩
      exact ⟨b, source⟩
    · rintro ⟨b, source⟩
      exact ⟨_, b, source, rfl⟩

-- What could be read can be read again, with the same type.
theorem value_again (hr : r.scope.catalog = c.catalog) (chain : e.Chain root members)
    (chain' : e'.Chain root members) {v : TypedExpr} (source : r.value c e = .ok v) :
    ∃ v', r.value c e' = .ok v' ∧ v'.type = v.type := by
  obtain ⟨v', source'⟩ := (value_chain_iff hr chain').2 ((value_chain_iff hr chain).1 ⟨v, source⟩)
  refine ⟨v', source', ?_⟩
  rw [value_type hr e' v' source', value_type hr e v source, TypeContext.typeOf?_chain chain',
    TypeContext.typeOf?_chain chain]

theorem read_again (hr : r.scope.catalog = c.catalog) (chain : e.Chain root members)
    (chain' : e'.Chain root members) {receiver : Expr} {info : FieldInfo} {type : TypeExpr}
    (aims : r.target c e = .ok (.field receiver info))
    (declared : info.declaredType? = some type) :
    ∃ v, r.value c e' = .ok v ∧ v.type = some (.known type) := by
  obtain ⟨v, source, is⟩ := value_of_target e aims
  obtain ⟨v', source', same⟩ := value_again hr chain chain' source
  refine ⟨v', source', ?_⟩
  rw [same, is, declared]
  rfl

theorem backed_of_target {schema : Schema}
    (built : r.scope.catalog = (Catalog.build schema r.settings {}).value) {receiver : Expr}
    {info : FieldInfo} (aims : r.target c e = .ok (.field receiver info)) :
    ∃ class_, info.classification? = some class_ ∧
      info.Backed r.settings (Catalog.build schema r.settings {}).enums class_ := by
  obtain ⟨visit, -, base, -, denotes, -⟩ := (target_weaves e aims).2 _ _ rfl
  exact backed_of_denotes built denotes

section

variable {schema : Schema} (built : c.catalog = (Catalog.build schema r.settings {}).value)
  (hr : r.scope.catalog = c.catalog)
include built hr

-- A field is read as what its accessor gives, with integers in the place of options.
theorem exists_readsAs {entity : EntityFields} {info : FieldInfo}
    (he : entity ∈ c.catalog.entities) (hi : info ∈ entity.fields) (proxied : info.isProxied) :
    ∃ f result type, (∀ methods, .func f ∈ c.catalog.declarations
        (Catalog.build schema r.settings {}).enums r.settings methods) ∧
      f.receiverEntity? = some entity.name ∧ f.name = info.accessor ∧ f.results = [result] ∧
      info.entity = entity.name ∧ r.ReadsAs c info f type ∧
      (type = info.represented result ↔ ¬info.IsBare) := by
  have spec := Catalog.build_spec schema r.settings
  rw [← built] at spec
  obtain ⟨class_, classified⟩ := FieldInfo.isProxied_iff.1 proxied
  have backed := (spec.fields entity he).backed info hi class_ classified
  have called := (spec.fields entity he).entity info hi
  have found : c.catalog.field? info.entity info.name = some info := by
    rw [called]
    exact Catalog.field?_of_mem spec he hi
  obtain ⟨pair, result, type, made, gives, declared, iff⟩ := backed.exists_result classified
  obtain ⟨pair', made', named, -, on, -⟩ := FieldInfo.accessors?_of_backed classified backed
  obtain rfl := Option.some.inj (made.symm.trans made')
  refine ⟨pair.accessor, result, type, fun methods => ?_, called ▸ on, named, gives, called,
    readsAs_of_declared hr found proxied declared named, iff⟩
  exact Catalog.func_mem_declarationsFrom he (entity.accessor_mem_functions methods hi made).1

variable {receiver : Expr} {info : FieldInfo} (chain : e.Chain root members)
  (chain' : e'.Chain root members) (aims : r.target c e = .ok (.field receiver info))
include chain chain' aims

variable (span temps) in
-- What was read from a field can be written back, but for a relation without a pointer.
theorem write_back :
    let s : Stmt := .assign span [e] .assign [e']
    (¬info.IsBare → Accepts r c temps s) ∧ (info.IsBare → Rejects r c temps s) := by
  intro s
  obtain ⟨class_, classified, backed⟩ := backed_of_target (hr.trans built) aims
  obtain ⟨type, declared⟩ := backed.declaredType?_isSome
  obtain ⟨v, source, is⟩ := read_again hr chain chain' aims declared
  have targets : r.targets c [e] = .ok [_] := ok_mapM.2 (.cons aims .nil)
  have sources : r.values c [e'] = .ok [v] := ok_values.2 (.cons source .nil)
  have check : r.checkWrite info v.type span = .ok () ↔ ¬info.IsBare := by
    rw [is, checkWrite_known_iff backed classified, backed.takes_declared_iff classified declared]
  refine ⟨fun pointed => accepts_assign targets sources ?_ temps, fun bare => ?_⟩
  · rintro _ _ _ (_ | ⟨_, ⟨⟩⟩)
    exact check.2 pointed
  · exact rejects_assign targets sources rfl (.head _) (fun passed => check.1 passed bare) temps

variable (span temps) in
-- Fields whose accessors give the same can be exchanged, and a relation without a pointer can be
-- exchanged for nothing.
theorem exchange {root' : String} {members' : List String} {d d' receiver' : Expr}
    {info' : FieldInfo} (other : d.Chain root' members') (other' : d'.Chain root' members')
    (aims' : r.target c d = .ok (.field receiver' info')) :
    let s : Stmt := .assign span [e, d] .assign [d', e']
    (¬info.IsBare → ¬info'.IsBare → info.SameResult r.settings info' → Accepts r c temps s) ∧
      (info.IsBare ∨ info'.IsBare → Rejects r c temps s) := by
  intro s
  obtain ⟨class_, classified, backed⟩ := backed_of_target (hr.trans built) aims
  obtain ⟨class', classified', backed'⟩ := backed_of_target (hr.trans built) aims'
  obtain ⟨type, declared⟩ := backed.declaredType?_isSome
  obtain ⟨type', declared'⟩ := backed'.declaredType?_isSome
  obtain ⟨v, source, is⟩ := read_again hr chain chain' aims declared
  obtain ⟨v', source', is'⟩ := read_again hr other other' aims' declared'
  have targets : r.targets c [e, d] = .ok [_, _] := ok_mapM.2 (.cons aims (.cons aims' .nil))
  have sources : r.values c [d', e'] = .ok [v', v] :=
    ok_values.2 (.cons source' (.cons source .nil))
  have check : r.checkWrite info v'.type span = .ok () ↔
      info.Fits type' ∨ info.OptionOfMany type' := by
    rw [is', checkWrite_known_iff backed classified]
  have check' : r.checkWrite info' v.type span = .ok () ↔
      info'.Fits type ∨ info'.OptionOfMany type := by
    rw [is, checkWrite_known_iff backed' classified']
  refine ⟨fun pointed pointed' same => accepts_assign targets sources ?_ temps, fun bare => ?_⟩
  · obtain rfl : type = type' := Option.some.inj <| declared.symm.trans <|
      (same.declared_eq backed classified backed' classified' pointed pointed').trans declared'
    have first := check.2 ((backed.takes_declared_iff classified declared).2 pointed)
    have second := check'.2 ((backed'.takes_declared_iff classified' declared').2 pointed')
    rintro _ _ _ (_ | ⟨_, _ | ⟨_, ⟨⟩⟩⟩)
    · exact first
    · exact second
  · by_contra accepted
    have first : r.checkWrite info v'.type span = .ok () := by
      by_contra refused
      exact accepted (rejects_assign targets sources rfl (.head _) refused temps)
    have second : r.checkWrite info' v.type span = .ok () := by
      by_contra refused
      exact accepted (rejects_assign targets sources rfl (.tail _ (.head _)) refused temps)
    -- The relation takes a pointer, so that the other field gives one and takes no less.
    rcases bare with bare | bare
    · have pointers := bare.holdsPointers (check.1 first)
      exact bare.not_holdsPointers declared
        (backed'.holdsPointers classified' declared' pointers (check'.1 second))
    · have pointers := bare.holdsPointers (check'.1 second)
      exact bare.not_holdsPointers declared'
        (backed.holdsPointers classified declared pointers (check.1 first))

end

-- Reading a field gives what its accessor gives, with integers in the place of options, unless the
-- field is a relation without a pointer. Such a relation can neither be written back nor be exchanged
-- for anything. Any other field can be written back, and exchanged for one whose accessor gives the
-- same.
theorem read_types_match_accessors {schema : Schema}
    (built : c.catalog = (Catalog.build schema r.settings {}).value)
    (hr : r.scope.catalog = c.catalog) :
    let enums := (Catalog.build schema r.settings {}).enums
    (∀ entity ∈ c.catalog.entities, ∀ info ∈ entity.fields, info.isProxied → ∃ f result type,
      (∀ methods, .func f ∈ c.catalog.declarations enums r.settings methods) ∧
      f.receiverEntity? = some entity.name ∧ f.name = info.accessor ∧ f.results = [result] ∧
      info.entity = entity.name ∧ r.ReadsAs c info f type ∧
      (type = info.represented result ↔ ¬info.IsBare)) ∧
    (∀ root members e e' receiver info, Expr.Chain root members e → Expr.Chain root members e' →
      r.target c e = .ok (.field receiver info) → ∀ span temps,
      let s : Stmt := .assign span [e] .assign [e']
      (¬info.IsBare → Accepts r c temps s) ∧ (info.IsBare → Rejects r c temps s)) ∧
    ∀ root root' members members' e e' d d' receiver receiver' info info',
      Expr.Chain root members e → Expr.Chain root members e' →
      Expr.Chain root' members' d → Expr.Chain root' members' d' →
      r.target c e = .ok (.field receiver info) → r.target c d = .ok (.field receiver' info') →
      ∀ span temps,
      let s : Stmt := .assign span [e, d] .assign [d', e']
      (¬info.IsBare → ¬info'.IsBare → info.SameResult r.settings info' → Accepts r c temps s) ∧
      (info.IsBare ∨ info'.IsBare → Rejects r c temps s) := by
  refine ⟨fun _ he _ hi proxied => exists_readsAs built hr he hi proxied, ?_, ?_⟩
  · intro _ _ _ _ _ _ chain chain' aims span temps
    exact write_back span temps built hr chain chain' aims
  · intro _ _ _ _ _ _ _ _ _ _ _ _ chain chain' other other' aims aims' span temps
    exact exchange span temps built hr chain chain' aims other other' aims'

end RedirectContext

-- A record store with a getter for a type that is called like an enumeration.
def Settings.graded : Settings :=
  { Settings.standard with getters := ("Status", "GetStatus") :: Settings.standard.getters }

-- An order with two numbers, a status, a grade of a type that is called like the enumeration of
-- the status, a customer and the next order.
def Entity.graded : Entity where
  name := "Order"
  fields :=
    [{ name := "count", type := "int" }, { name := "total", type := "int" },
     Schema.enumField "status" "Status" ["new", "paid"] false, { name := "grade", type := "Status" },
     { name := "customer", type := "Customer" }, { name := "next", type := "*Order" }]

def Entity.customer : Entity where
  name := "Customer"
  fields := []

def Schema.graded : Schema where
  entities := [.graded, .customer]

namespace FieldInfo

def gradedNumber (name : String) : FieldInfo :=
  ⟨"Order", { name := name, type := "int" }, .proxied (.primitive "int" "GetInt")⟩

def gradedStatus : FieldInfo :=
  ⟨"Order", Schema.enumField "status" "Status" ["new", "paid"] false,
    .proxied (.enumeration .single "Status")⟩

def gradedGrade : FieldInfo :=
  ⟨"Order", { name := "grade", type := "Status" }, .proxied (.primitive "Status" "GetStatus")⟩

def gradedCustomer : FieldInfo :=
  ⟨"Order", { name := "customer", type := "Customer" }, .proxied (.relation .single "Customer")⟩

def gradedNext : FieldInfo :=
  ⟨"Order", { name := "next", type := "*Order" }, .proxied (.relation .single "Order")⟩

end FieldInfo

-- The catalog of `Schema.graded`.
def Catalog.graded : Catalog where
  entities := [⟨.graded, [.gradedNumber "count", .gradedNumber "total", .gradedStatus, .gradedGrade,
    .gradedCustomer, .gradedNext]⟩, ⟨.customer, []⟩]

theorem Catalog.build_graded : (build .graded .graded {}).value = graded := by
  decide +kernel

-- A method of an order `o`.
def TypeContext.graded : TypeContext :=
  ⟨.graded, ⟨[]⟩, [⟨"o", some (.pointer (.named "Order"))⟩]⟩

namespace RedirectContext

def graded : RedirectContext :=
  ⟨"F", ⟨.graded, ["Order", "Customer"]⟩, .graded⟩

theorem gradedNumber_not_isBare (name : String) : ¬(FieldInfo.gradedNumber name).IsBare := by
  rintro ⟨_, _, classified, _⟩
  cases classified

-- The accessor of `o.next.total` gives an integer, as the read does. It can be written back, and
-- exchanged for `o.count` but not for `o.customer`.
theorem read_types_match_accessors_graded :
    let c := TypeContext.graded
    let o : Expr := .ident .nowhere "o"
    let next := FieldInfo.gradedNext.read o .nowhere
    let count : Expr := .select .nowhere o "count"
    let customer : Expr := .select .nowhere o "customer"
    let total : Expr := .select .nowhere (.select .nowhere o "next") "total"
    (∃ (f : FuncDecl) (result : TypeExpr), f.results = [result] ∧
      c.typeOf? total = some (.known result) ∧ graded.value c total =
        .ok ⟨.call .nowhere (.select .nowhere next.expr f.name) [] [], some (.known result)⟩) ∧
    ∀ temps, Accepts graded c temps (.assign .nowhere [total] .assign [total]) ∧
      Accepts graded c temps (.assign .nowhere [count, total] .assign [total, count]) ∧
      Rejects graded c temps (.assign .nowhere [customer, total] .assign [total, customer]) := by
  intro c o next count customer total
  obtain ⟨reads, back, exchange⟩ := read_types_match_accessors (r := graded) (c := c)
    Catalog.build_graded.symm rfl
  have chain : count.Chain "o" ["count"] := .member .root
  have chain' : customer.Chain "o" ["customer"] := .member .root
  have toNext : (Expr.select .nowhere o "next").Chain "o" ["next"] := .member .root
  have toTotal : total.Chain "o" ["next", "total"] := .member toNext
  have source : graded.value c (.select .nowhere o "next") = .ok next := by rfl
  have aims : graded.target c total = .ok (.field next.expr (.gradedNumber "total")) := by
    with_unfolding_all rfl
  have declared : FieldInfo.gradedNext.declaredType? = some (.pointer (.named "Order")) := by
    decide +kernel
  have counted : (FieldInfo.gradedNumber "count").declaredType? = some .int := by decide +kernel
  have summed : (FieldInfo.gradedNumber "total").declaredType? = some .int := by decide +kernel
  have same := FieldInfo.sameResult_of_primitive .graded rfl rfl counted summed
  have bare : FieldInfo.gradedCustomer.IsBare := ⟨.single, "Customer", rfl, .inl (by decide +kernel)⟩
  refine ⟨?_, fun temps => ⟨?_, ?_, ?_⟩⟩
  · obtain ⟨f, result, type, -, -, -, gives, -, typed, iff⟩ := reads _ (.head _)
      (.gradedNumber "total") (.tail _ (.head _)) rfl
    obtain rfl : type = result := iff.2 (gradedNumber_not_isBare _)
    have known : c.typeOf? (.select .nowhere o "next") = some (.known (.pointer (.named "Order"))) :=
      (@typeOf?_field c .nowhere o _ .gradedNext rfl rfl rfl).trans (congrArg _ declared)
    obtain ⟨is, value⟩ := typed _ _ .nowhere known rfl
    exact ⟨f, type, gives, is, value next (.head _) source⟩
  · exact (back "o" _ total total next.expr (.gradedNumber "total") toTotal toTotal aims .nowhere
      temps).1 (gradedNumber_not_isBare _)
  · exact (exchange "o" "o" _ _ count count total total o next.expr (.gradedNumber "count")
      (.gradedNumber "total") chain chain toTotal toTotal rfl aims .nowhere temps).1
      (gradedNumber_not_isBare _) (gradedNumber_not_isBare _) same
  · exact (exchange "o" "o" _ _ customer customer total total o next.expr .gradedCustomer
      (.gradedNumber "total") chain' chain' toTotal toTotal rfl aims .nowhere temps).2 (.inl bare)

-- The accessor of `o.customer` gives a pointer where the read gives what it points at, and `o.customer
-- = o.customer` is refused. So is `o.status, o.grade = o.grade, o.status`, whose accessors give the
-- same type by name.
theorem bare_relation_not_written_back :
    let c := TypeContext.graded
    let result (info : FieldInfo) := (info.accessors? .graded).map (·.accessor.results)
    let field (f : String) : Expr := .select .nowhere (.ident .nowhere "o") f
    let refused (written values : List Expr) : Prop := ∃ err, err.IsMismatch ∧
      graded.stmt c false (.assign .nowhere written .assign values) ⟨[]⟩ = .error err
    c.catalog = (Catalog.build .graded graded.settings {}).value ∧
    result .gradedCustomer = some [.pointer (.named "Customer")] ∧
    c.typeOf? (field "customer") = some (.known (.named "Customer")) ∧
    refused [field "customer"] [field "customer"] ∧
    result .gradedStatus = some [.named "Status"] ∧ result .gradedGrade = some [.named "Status"] ∧
    refused [field "status", field "grade"] [field "grade", field "status"] := by
  intro c result field refused
  refine ⟨Catalog.build_graded.symm, by decide +kernel, by decide +kernel, ?_, by decide +kernel,
    by decide +kernel, ?_⟩
  · refine ⟨⟨"F", .nowhere, .typeMismatch "Order" "customer" (.pointer (.named "Customer"))
      (.known (.named "Customer"))⟩, ⟨_, _, _, _, rfl⟩, ?_⟩
    rw [stmt]
    with_unfolding_all rfl
  · refine ⟨⟨"F", .nowhere, .typeMismatch "Order" "grade" (.named "Status") (.known .int)⟩,
      ⟨_, _, _, _, rfl⟩, ?_⟩
    rw [stmt]
    with_unfolding_all rfl

mutual

-- The walk that carries no types along: the context is asked for the type of each base.
def untracked (r : RedirectContext) (c : TypeContext) : Expr → Except RedirectError Expr
  | .select span base member => do
    let receiver ← untracked r c base
    match ← r.resolve c (c.typeOf? base) member span with
    | .proxied info => return .call span (.select span receiver info.accessor) [] []
    | _ => return .select span receiver member
  | .call span callee typeArgs args => do
    let callee ← untracked r c callee
    return .call span callee typeArgs (← untrackedAll r c args)
  | .index span base i => do
    let base ← untracked r c base
    return .index span base (← untracked r c i)
  | .binary span op left right => do
    let left ← untracked r c left
    return .binary span op left (← untracked r c right)
  | .unary span op operand => return .unary span op (← untracked r c operand)
  | .paren span inner => return .paren span (← untracked r c inner)
  | .composite span type list => return .composite span type (← untrackedElements r c list)
  | e => return e

def untrackedAll (r : RedirectContext) (c : TypeContext) :
    List Expr → Except RedirectError (List Expr)
  | [] => return []
  | e :: rest => do
    let e ← untracked r c e
    return e :: (← untrackedAll r c rest)

def untrackedElements (r : RedirectContext) (c : TypeContext) :
    List Element → Except RedirectError (List Element)
  | [] => return []
  | .positional v :: rest => do
    let v ← untracked r c v
    return .positional v :: (← untrackedElements r c rest)
  | .keyed k v :: rest => do
    let k ← untracked r c k
    let v ← untracked r c v
    return .keyed k v :: (← untrackedElements r c rest)

end

section

variable {r : RedirectContext} {c : TypeContext}

mutual

theorem expr_value (hr : r.scope.catalog = c.catalog) :
    ∀ e : Expr, TypedExpr.expr <$> r.value c e = r.untracked c e
  | .ident .. | .literal .. | .typeOperand .. => rfl
  | .select span base member => by
    rw [value, untracked, ← expr_value hr base]
    cases hb : r.value c base with
    | error => rfl
    | ok b =>
      change TypedExpr.expr <$> (r.resolve c b.type member span >>= _) =
        r.resolve c (c.typeOf? base) member span >>= _
      rw [value_type hr base b hb, map_bind]
      refine bind_congr fun res => ?_
      cases res <;> rfl
  | .call _ callee _ args => by
    rw [value, untracked, ← expr_value hr callee, ← exprs_values hr args]
    simp only [map_bind, bind_map_left, map_pure]
  | .index _ base i => by
    rw [value, untracked, ← expr_value hr base, ← expr_value hr i]
    simp only [map_bind, bind_map_left, map_pure]
  | .binary _ _ left right => by
    rw [value, untracked, ← expr_value hr left, ← expr_value hr right]
    simp only [map_bind, bind_map_left, map_pure]
  | .unary _ _ operand => by
    rw [value, untracked, ← expr_value hr operand]
    simp only [map_bind, bind_map_left, map_pure]
  | .paren _ inner => by
    rw [value, untracked, ← expr_value hr inner]
    simp only [map_bind, bind_map_left, map_pure]
  | .composite _ _ list => by
    rw [value, untracked, ← elements_untracked hr list]
    simp only [map_bind, map_pure]

theorem exprs_values (hr : r.scope.catalog = c.catalog) :
    ∀ es : List Expr, List.map TypedExpr.expr <$> r.values c es = r.untrackedAll c es
  | [] => rfl
  | e :: rest => by
    rw [values, untrackedAll, ← expr_value hr e, ← exprs_values hr rest]
    simp only [map_bind, bind_map_left, map_pure, List.map_cons]

theorem elements_untracked (hr : r.scope.catalog = c.catalog) :
    ∀ list : List Element, r.elements c list = r.untrackedElements c list
  | [] => rfl
  | .positional v :: rest => by
    rw [elements, untrackedElements, ← expr_value hr v, ← elements_untracked hr rest]
    simp only [bind_map_left]
  | .keyed k v :: rest => by
    rw [elements, untrackedElements, ← expr_value hr k, ← expr_value hr v,
      ← elements_untracked hr rest]
    simp only [bind_map_left]

end

-- The type that the walk carries along is the one that the context derives from the expression as it
-- was, whatever the scope. So the walk does what one does that asks the context for every base.
theorem tracked_types_are_derived (hr : r.scope.catalog = c.catalog) (e : Expr) :
    (∀ t, r.value c e = .ok t → t.type = c.typeOf? e) ∧
      r.value c e = (⟨·, c.typeOf? e⟩) <$> r.untracked c e := by
  have typed := value_type hr e
  refine ⟨typed, ?_⟩
  rw [← expr_value hr e]
  cases h : r.value c e with
  | error => rfl
  | ok t =>
    obtain ⟨expr, type⟩ := t
    obtain rfl : type = c.typeOf? e := typed _ h
    rfl

end

-- The expression `[]*Order{o.next}[0].count + 1`: the context derives an integer through the literal
-- and its item, and the walk knows as much of the calls that it makes.
theorem tracked_types_are_derived_graded :
    let c := TypeContext.graded
    let first (e : Expr) : Expr := .index .nowhere (.composite .nowhere
      (.slice (.pointer (.named "Order"))) [.positional e]) (.literal .nowhere (.int 0))
    let more (e : Expr) : Expr := .binary .nowhere .add e (.literal .nowhere (.int 1))
    let o : Expr := .ident .nowhere "o"
    let next := FieldInfo.gradedNext.read o .nowhere
    let count := (FieldInfo.gradedNumber "count").read (first next.expr) .nowhere
    let e := more (.select .nowhere (first (.select .nowhere o "next")) "count")
    graded.scope.catalog = c.catalog ∧ c.typeOf? e = some (.known .int) ∧
      graded.value c e = .ok ⟨more count.expr, c.typeOf? e⟩ := by
  intro c first more o next count e
  have walk : graded.untracked c e = .ok (more count.expr) := by with_unfolding_all rfl
  refine ⟨rfl, by decide +kernel, ?_⟩
  rw [(tracked_types_are_derived rfl e).2, walk]
  rfl

end RedirectContext

end FieldAccess
