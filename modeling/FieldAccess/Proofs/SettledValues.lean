import FieldAccess.Proofs.InsertedCalls
import FieldAccess.Proofs.TypeAgreement

namespace FieldAccess

theorem append_subset_append {α : Type} {a a' b b' : List α} (h : a ⊆ a') (h' : b ⊆ b') :
    a ++ b ⊆ a' ++ b' :=
  List.append_subset.2 ⟨List.subset_append_of_subset_left b' h, List.subset_append_of_subset_right a' h'⟩

namespace Expr

def typeOperand? : Expr → Option TypeExpr
  | .typeOperand _ type => some type
  | _ => none

end Expr

namespace TypeContext

-- The names of accessors and mutators are no names of fields or methods, no method is called like a
-- proxied field, and no entity is called like a type that a constant can have.
structure Unmistakable (c : TypeContext) : Prop where
  accessor : ∀ {entity member info}, c.catalog.field? entity member = some info → info.isProxied →
    c.catalog.field? entity info.accessor = none
  mutator : ∀ {entity member info}, c.catalog.field? entity member = some info → info.isProxied →
    c.catalog.field? entity info.mutator = none
  result : ∀ {entity member info}, c.catalog.field? entity member = some info → info.isProxied →
    c.memberResult? entity info.accessor = info.declaredType?
  uncalled : ∀ {entity member info}, c.catalog.field? entity member = some info → info.isProxied →
    c.memberResult? entity member = none
  undeclared : ∀ {entity member info}, c.catalog.field? entity member = some info → info.isProxied →
    c.methods.get? entity member = none ∧ c.methods.get? entity info.accessor = none
  basic : ∀ entity ∈ ["int", "float64", "string", "bool"], c.catalog.entity? entity = none

theorem Agrees.unmistakable {names : List String} {c c' : TypeContext} (h : Agrees names c c')
    (sure : c.Unmistakable) : c'.Unmistakable := by
  have none {entity name : String} (h' : c.methods.get? entity name = none) :
      c'.methods.get? entity name = none := by
    simpa [h'] using h.results entity name
  constructor <;> rw [h.catalog]
  · exact sure.accessor
  · exact sure.mutator
  · exact fun found proxied => (h.memberResult?_eq ..).trans (sure.result found proxied)
  · exact fun found proxied => (h.memberResult?_eq ..).trans (sure.uncalled found proxied)
  · exact fun found proxied => (sure.undeclared found proxied).imp none none
  · exact sure.basic

theorem typeOf?_call_paren (c : TypeContext) (span at_ : Span) (e : Expr) (typeArgs : List TypeExpr)
    (args : List Expr) :
    c.typeOf? (.call span (.paren at_ e) typeArgs args) = e.typeOperand?.map .known := by
  cases e <;> rfl

theorem functionResult?_eq (name : String) (args : List Expr) (first : Option StaticType) :
    functionResult? name args first =
      if name = "make" ∨ name = "new" then (args.head?.bind (·.typeOperand?)).map .known
      else functionResult? name [] first := by
  split
  case isTrue made =>
    rcases made with rfl | rfl <;> rcases args with _ | ⟨e, _⟩ <;> first | rfl | (cases e <;> rfl)
  case isFalse other =>
    obtain ⟨make, new⟩ := not_or.1 other
    simp [functionResult?, make, new]

theorem entityOf?_known {c : TypeContext} {type : TypeExpr} {entity member : String}
    {info : FieldInfo} (named : type.namedTarget? = some entity)
    (found : c.catalog.field? entity member = some info) :
    c.entityOf? (.known type) = some entity := by
  simp [entityOf?, StaticType.known?, named, Catalog.hasEntity_of_field? found]

end TypeContext

namespace RedirectContext

open TypeContext

variable {r r' : RedirectContext} {c c' : TypeContext} {span : Span} {base : Expr} {member : String}

-- The scope holds no entities but those of another context's scope.
structure Within (r' r : RedirectContext) (catalog : Catalog) : Prop where
  outer : r.scope.catalog = catalog
  inner : r'.scope.catalog = catalog
  entities : ∀ entity ∈ r'.scope.entities, entity ∈ r.scope.entities

-- The field of an entity in the scope that a member of a value of the type is.
def fieldOf? (r : RedirectContext) (type : Option StaticType) (member : String) : Option FieldInfo :=
  ((type.bind (·.known?)).bind (·.namedTarget?)).bind (r.scope.field? · member)

theorem fieldOf?_eq_some {type : Option StaticType} {info : FieldInfo}
    (h : r.fieldOf? type member = some info) :
    ∃ known entity, type = some (.known known) ∧ known.namedTarget? = some entity ∧
      entity ∈ r.scope.entities ∧ r.scope.catalog.field? entity member = some info := by
  obtain ⟨entity, named, inScope⟩ := Option.bind_eq_some_iff.1 h
  obtain ⟨known, hk, target⟩ := Option.bind_eq_some_iff.1 named
  obtain ⟨static, rfl, same⟩ := Option.bind_eq_some_iff.1 hk
  have same : static = .known known := by cases static <;> simp_all [StaticType.known?]
  rw [RedirectScope.field?] at inScope
  split at inScope
  case isFalse => cases inScope
  case isTrue listed =>
    exact ⟨known, entity, congrArg some same, target, List.contains_iff_mem.1 listed, inScope⟩

variable (span member) in
theorem resolve_fieldOf? (hr : r.scope.catalog = c.catalog) (type : Option StaticType) :
    r.resolve c type member span =
      match r.fieldOf? type member with
      | none => .ok .other
      | some info => match info.access with
        | .proxied _ => .ok (.proxied info)
        | .direct => .ok (.direct info)
        | .unavailable => r.fail span (.missingAccessor info.entity info.name) := by
  cases found : r.fieldOf? type member with
  | some info =>
    obtain ⟨known, entity, rfl, named, listed, field⟩ := fieldOf?_eq_some found
    have isField : TypeOracle.isField c known member = true := by
      change (known.namedTarget?.any fun entity => (c.catalog.field? entity member).isSome) = true
      simp [named, ← hr, field]
    have inScope : known.namedTarget?.bind (r.scope.field? · member) = some info := found
    simp only [resolve, Option.bind_some, StaticType.known?, inScope, isField, if_true]
    rfl
  | none =>
    unfold resolve
    split
    case h_1 => rfl
    case h_2 known hk =>
      have none : known.namedTarget?.bind (r.scope.field? · member) = none := by
        rw [fieldOf?, hk] at found
        exact found
      rw [none]
      rfl

-- A member that is a field of the base, whether it is replaced or not.
theorem fieldOf?_of_resolve (hr : r.scope.catalog = c.catalog) {type : Option StaticType}
    {res : Resolution} (h : r.resolve c type member span = .ok res) :
    match res with
    | .proxied info => r.fieldOf? type member = some info ∧ info.isProxied
    | .direct info => r.fieldOf? type member = some info ∧ info.access = .direct
    | .other => r.fieldOf? type member = none := by
  rw [resolve_fieldOf? _ _ hr] at h
  cases found : r.fieldOf? type member with
  | none =>
    rw [found] at h
    cases h
    rfl
  | some info =>
    cases access : info.access <;> simp only [found, access, Except.ok.injEq] at h
    case proxied =>
      subst h
      exact ⟨rfl, by simp [FieldInfo.isProxied, access, Access.isProxied, Access.classification?]⟩
    case direct =>
      subst h
      exact ⟨rfl, access⟩
    case unavailable => simp [fail, ok_throw] at h

-- Where the element type of a base is known, it is that of the item.
theorem element_or_typeOf? {i : Expr} {type : Option StaticType} (known : c.typeOf? base = type) :
    (((type.bind (·.known?)).bind (·.element?)).map StaticType.known).or
      (c.typeOf? (.index span base i)) = c.typeOf? (.index span base i) := by
  rw [TypeContext.typeOf?, known]
  rcases type with _ | (type | _)
  · rfl
  · cases type <;> rfl
  all_goals rfl

-- The type that the walk carries along is the one that the context derives.
theorem value_type (hr : r.scope.catalog = c.catalog) :
    (e : Expr) → (t : TypedExpr) → r.value c e = .ok t → t.type = c.typeOf? e
  | .ident _ _, _, h | .literal _ _, _, h | .typeOperand _ _, _, h => ok_pure.1 h ▸ rfl
  | .select span base member, _, h => by
    simp only [value, ok_bind] at h
    obtain ⟨b, hb, res, resolved, ht⟩ := h
    have field {info : FieldInfo} (found : r.fieldOf? b.type member = some info) :
        info.declaredType?.map .known = c.typeOf? (.select span base member) := by
      obtain ⟨type, entity, known, named, _, field⟩ := fieldOf?_eq_some found
      rw [hr] at field
      have type := (value_type hr base b hb).symm.trans known
      simp [TypeContext.typeOf?, type, TypeContext.entityOf?_known named field, field]
    cases res with
    | proxied info => exact ok_pure.1 ht ▸ field (fieldOf?_of_resolve hr resolved).1
    | direct info => exact ok_pure.1 ht ▸ field (fieldOf?_of_resolve hr resolved).1
    | other => exact ok_pure.1 ht ▸ rfl
  | .call _ _ _ _, _, h => by
    simp only [value, ok_bind, ok_pure] at h
    obtain ⟨_, _, _, _, rfl⟩ := h
    rfl
  | .index _ base _, _, h => by
    simp only [value, ok_bind, ok_pure] at h
    obtain ⟨b, hb, _, _, rfl⟩ := h
    exact element_or_typeOf? (value_type hr base b hb).symm
  | .binary _ _ _ _, _, h => by
    simp only [value, ok_bind, ok_pure] at h
    obtain ⟨_, _, _, _, rfl⟩ := h
    rfl
  | .unary _ _ _, _, h => by
    simp only [value, ok_bind, ok_pure] at h
    obtain ⟨_, _, rfl⟩ := h
    rfl
  | .paren _ inner, _, h => by
    obtain ⟨i, hi, rfl⟩ := ok_value_paren h
    exact value_type hr inner i hi
  | .composite _ _ _, _, h => by
    simp only [value, ok_bind, ok_pure] at h
    obtain ⟨_, _, rfl⟩ := h
    rfl
termination_by structural e => e

-- Redirection leaves the expression as it is.
def Settled (r : RedirectContext) (c : TypeContext) (e : Expr) : Prop :=
  r.value c e = .ok ⟨e, c.typeOf? e⟩

-- Redirection leaves the member alone on a base of the type.
def Passes (r : RedirectContext) (type : Option StaticType) (member : String) : Prop :=
  ∀ info, r.fieldOf? type member = some info → info.access = .direct

-- What a wider scope leaves alone, a narrower one does.
theorem Within.passes (within : r'.Within r c.catalog) {type : Option StaticType} {res : Resolution}
    (h : r.resolve c type member span = .ok res) (kept : ∀ info, res ≠ .proxied info) :
    r'.Passes type member := by
  intro info found
  obtain ⟨known, entity, rfl, named, listed, field⟩ := fieldOf?_eq_some found
  have wider : r.fieldOf? (some (.known known)) member = some info := by
    have listed : r.scope.contains entity := List.contains_iff_mem.2 (within.entities _ listed)
    rw [within.inner, ← within.outer] at field
    simp [fieldOf?, StaticType.known?, named, RedirectScope.field?, listed, field]
  cases res with
  | proxied info => exact absurd rfl (kept info)
  | direct info' =>
    obtain ⟨found', direct⟩ := fieldOf?_of_resolve within.outer h
    rw [wider] at found'
    exact Option.some.inj found' ▸ direct
  | other => simp [fieldOf?_of_resolve within.outer h] at wider

namespace Settled

variable {e i left right : Expr}

theorem of_ok (hr : r.scope.catalog = c.catalog) {t : TypedExpr} (h : r.value c e = .ok t)
    (same : t.expr = e) : r.Settled c e := by
  have type := value_type hr e t h
  subst same
  rw [Settled, h, ← type]

theorem transfer {names : List String} (agrees : Agrees names c c') (sub : e.names ⊆ names)
    (h : r.Settled c e) : r.Settled c' e := by
  rw [Settled, value_eq agrees e sub, agrees.typeOf?_eq e sub]
  exact h

theorem ident (name : String) : r.Settled c (.ident span name) := rfl

theorem literal (value : Literal) : r.Settled c (.literal span value) := rfl

theorem select (hr : r.scope.catalog = c.catalog) (h : r.Settled c base)
    (passes : r.Passes (c.typeOf? base) member) : r.Settled c (.select span base member) := by
  have resolved := resolve_fieldOf? span member hr (c.typeOf? base)
  cases found : r.fieldOf? (c.typeOf? base) member with
  | none =>
    rw [Settled, value, h]
    simp only [found] at resolved
    simp only [ok_bind, Except.ok.injEq]
    exact ⟨_, rfl, _, resolved, rfl⟩
  | some info =>
    simp only [found, passes info found] at resolved
    refine of_ok hr (t := ⟨_, info.declaredType?.map .known⟩) ?_ rfl
    rw [value, h]
    simp only [ok_bind]
    exact ⟨_, rfl, _, resolved, rfl⟩

theorem values {es : List Expr} (h : ∀ e ∈ es, r.Settled c e) :
    ∃ ts, r.values c es = .ok ts ∧ ts.map (·.expr) = es := by
  refine ⟨es.map fun e => ⟨e, c.typeOf? e⟩, ?_, by simp [Function.comp_def]⟩
  rw [ok_values]
  induction es with
  | nil => exact .nil
  | cons e es ih => exact .cons (h e (by simp)) (ih fun e he => h e (by simp [he]))

theorem call {args : List Expr} {typeArgs : List TypeExpr} (callee : r.Settled c e)
    (hargs : ∀ a ∈ args, r.Settled c a) : r.Settled c (.call span e typeArgs args) := by
  obtain ⟨ts, found, same⟩ := values hargs
  rw [Settled, value, callee, found]
  change Except.ok (TypedExpr.mk (.call span e typeArgs (ts.map (·.expr))) _) = _
  rw [same]
  rfl

theorem index (h : r.Settled c base) (hi : r.Settled c i) :
    r.Settled c (.index span base i) := by
  rw [Settled, value, h, hi]
  exact congrArg (fun type => Except.ok (TypedExpr.mk (.index span base i) type))
    (element_or_typeOf? rfl)

theorem binary {op : BinaryOp} (hl : r.Settled c left) (h : r.Settled c right) :
    r.Settled c (.binary span op left right) := by
  rw [Settled, value, hl, h]
  rfl

theorem unary {op : UnaryOp} (h : r.Settled c e) : r.Settled c (.unary span op e) := by
  rw [Settled, value, h]
  rfl

theorem paren (h : r.Settled c e) : r.Settled c (.paren span e) := by
  rw [Settled, value, h]
  rfl

theorem composite {type : TypeExpr} {list : List Element} (h : r.elements c list = .ok list) :
    r.Settled c (.composite span type list) := by
  rw [Settled, value, h]
  rfl

theorem elements_positional {es : List Expr} (h : ∀ e ∈ es, r.Settled c e) :
    r.elements c (es.map .positional) = .ok (es.map .positional) := by
  induction es with
  | nil => rfl
  | cons e es ih =>
    rw [List.map_cons, elements, h e (by simp), ih fun e he => h e (by simp [he])]
    rfl

-- The parts of a settled expression are settled.
theorem of_index (hr : r.scope.catalog = c.catalog) (h : r.Settled c (.index span base i)) :
    r.Settled c base ∧ r.Settled c i := by
  obtain ⟨_, _, hb, hi, same⟩ := ok_value_index h
  injection same with _ same same'
  exact ⟨of_ok hr hb same.symm, of_ok hr hi same'.symm⟩

theorem of_unary (hr : r.scope.catalog = c.catalog) {op : UnaryOp}
    (h : r.Settled c (.unary span op e)) : r.Settled c e := by
  obtain ⟨_, he, same⟩ := ok_value_unary h
  injection same with _ _ same
  exact of_ok hr he same.symm

theorem of_elements (hr : r.scope.catalog = c.catalog) {list : List Element}
    (h : r.elements c list = .ok list) (unkeyed : list.all (·.key?.isNone)) :
    ∀ e ∈ list.map (·.value), r.Settled c e := by
  induction list with
  | nil => simp
  | cons item rest ih =>
    simp only [List.all_cons, Bool.and_eq_true] at unkeyed
    cases item with
    | keyed => simp [Element.key?] at unkeyed
    | positional v =>
      obtain ⟨t, rest', ht, hrest, same⟩ := ok_elements_positional h
      injection same with same same'
      injection same with same
      subst same'
      rw [List.map_cons]
      exact List.forall_mem_cons.2 ⟨of_ok hr ht same.symm, ih hrest unkeyed.2⟩

theorem of_composite {type : TypeExpr} {list : List Element}
    (h : r.Settled c (.composite span type list)) : r.elements c list = .ok list := by
  obtain ⟨list', hl, same⟩ := ok_value_composite h
  injection same with _ _ same
  rw [same] at hl ⊢
  exact hl

end Settled

-- What an expression becomes is settled in a narrower scope, and means the same to the context.
structure Becomes (r : RedirectContext) (c : TypeContext) (e : Expr) (t : TypedExpr) : Prop where
  settled : r.Settled c t.expr
  typed : t.type = c.typeOf? t.expr
  same : c.typeOf? t.expr = c.typeOf? e
  names : t.expr.names ⊆ e.names
  -- As a value that is assigned to several variables, as an argument, and as a callee.
  index : t.expr.isIndex = e.isIndex
  results : c.callResults? t.expr = c.callResults? e
  operand : t.expr.typeOperand? = e.typeOperand?
  called : c.calledMethod? t.expr = c.calledMethod? e
  calls : ∀ span typeArgs args args', c.firstType? args' = c.firstType? args →
    args'.head?.bind (·.typeOperand?) = args.head?.bind (·.typeOperand?) →
    c.typeOf? (.call span t.expr typeArgs args') = c.typeOf? (.call span e typeArgs args)
  callFree : t.expr.isCallFree → e.isCallFree

namespace Becomes

variable {e : Expr} {t : TypedExpr} {es : List Expr} {ts : List TypedExpr}

theorem variableType?_eq (h : r.Becomes c e t) : c.variableType? t.expr = c.variableType? e := by
  rw [variableType?, h.same, variableType?]

theorem rangeTypes?_eq (h : r.Becomes c e t) : c.rangeTypes? t.expr = c.rangeTypes? e := by
  rw [rangeTypes?, h.same, rangeTypes?]

theorem all_settled (h : List.Forall₂ (r.Becomes c) es ts) : ∀ e ∈ ts.map (·.expr), r.Settled c e := by
  induction h with
  | nil => simp
  | cons first _ ih => simpa using ⟨first.settled, by simpa using ih⟩

theorem all_names (h : List.Forall₂ (r.Becomes c) es ts) :
    namesOfExprs (ts.map (·.expr)) ⊆ namesOfExprs es := by
  induction h with
  | nil => exact List.Subset.refl _
  | cons first _ ih => exact append_subset_append first.names ih

theorem firstType?_eq (h : List.Forall₂ (r.Becomes c) es ts) :
    c.firstType? (ts.map (·.expr)) = c.firstType? es := by
  cases h with
  | nil => rfl
  | cons first _ => exact first.same

theorem firstOperand_eq (h : List.Forall₂ (r.Becomes c) es ts) :
    (ts.map (·.expr)).head?.bind (·.typeOperand?) = es.head?.bind (·.typeOperand?) := by
  cases h with
  | nil => rfl
  | cons first _ => exact first.operand

end Becomes

-- The accessor of a field, called in place of its selector.
theorem becomes_read (within : r'.Within r c.catalog) (sure : c.Unmistakable) {b : TypedExpr}
    {info : FieldInfo} (hb : r'.Becomes c base b)
    (found : r.fieldOf? b.type member = some info) (proxied : info.isProxied) :
    r'.Becomes c (.select span base member) (info.read b.expr span) := by
  obtain ⟨known, entity, type, named, _, field⟩ := fieldOf?_eq_some found
  rw [within.outer] at field
  have type : c.typeOf? b.expr = some (.known known) := hb.typed.symm.trans type
  have target : c.entityOf? (.known known) = some entity := entityOf?_known named field
  have baseType : c.typeOf? base = some (.known known) := hb.same.symm.trans type
  have callee : r'.Settled c (.select span b.expr info.accessor) := by
    refine .select within.inner hb.settled fun other hf => ?_
    obtain ⟨_, _, h, named', _, hf⟩ := fieldOf?_eq_some hf
    rw [type] at h
    cases h
    rw [named] at named'
    cases named'
    rw [within.inner, sure.accessor field proxied] at hf
    cases hf
  have result : c.typeOf? (info.read b.expr span).expr = info.declaredType?.map .known := by
    simp [FieldInfo.read, typeOf?, type, target, sure.result field proxied]
  exact {
    settled := .call callee (by simp)
    typed := result.symm
    same := result.trans (by simp [typeOf?, baseType, target, field])
    names := by simpa [FieldInfo.read, Expr.names, namesOfExprs] using hb.names
    index := rfl
    results := by
      simp [FieldInfo.read, callResults?, calledMethod?, type, target, (sure.undeclared field proxied).2]
    operand := rfl
    called := by
      simp [FieldInfo.read, calledMethod?, baseType, target, (sure.undeclared field proxied).1]
    calls := fun _ _ _ _ _ _ => by
      simp [FieldInfo.read, typeOf?, baseType, target, sure.uncalled field proxied]
    callFree := fun h => by simp [FieldInfo.read, Expr.isCallFree] at h }

mutual

theorem value_becomes (within : r'.Within r c.catalog) (sure : c.Unmistakable) :
    (e : Expr) → (t : TypedExpr) → r.value c e = .ok t → r'.Becomes c e t
  | .ident span name, _, h => by
    cases ok_pure.1 h
    exact ⟨rfl, rfl, rfl, List.Subset.refl _, rfl, rfl, rfl, rfl, fun _ _ _ _ first operand => by
      simp only [typeOf?, first]
      rw [functionResult?_eq, operand, ← functionResult?_eq], id⟩
  | .literal _ _, _, h | .typeOperand _ _, _, h => by
    cases ok_pure.1 h
    exact ⟨rfl, rfl, rfl, List.Subset.refl _, rfl, rfl, rfl, rfl, fun _ _ _ _ _ _ => rfl, id⟩
  | .select span base member, t, h => by
    have typed := value_type within.outer _ t h
    simp only [value, ok_bind] at h
    obtain ⟨b, hb, res, resolved, ht⟩ := h
    have hb := value_becomes within sure base b hb
    have found := fieldOf?_of_resolve within.outer resolved
    have plain (kept : ∀ info, res ≠ .proxied info) (type : Option StaticType)
        (typed : type = c.typeOf? (.select span base member)) :
        r'.Becomes c (.select span base member) ⟨.select span b.expr member, type⟩ := by
      have same : c.typeOf? (.select span b.expr member) = c.typeOf? (.select span base member) := by
        simp only [typeOf?, hb.same]
      exact {
        settled := .select within.inner hb.settled (hb.typed ▸ within.passes resolved kept)
        typed := typed.trans same.symm
        same
        names := hb.names
        index := rfl
        results := rfl
        operand := rfl
        called := by simp only [calledMethod?, hb.same]
        calls := fun _ _ _ _ _ _ => by simp only [typeOf?, hb.same]
        callFree := hb.callFree }
    cases res with
    | proxied info => exact ok_pure.1 ht ▸ becomes_read within sure hb found.1 found.2
    | direct info =>
      cases ok_pure.1 ht
      exact plain (by simp) _ typed
    | other =>
      cases ok_pure.1 ht
      exact plain (by simp) _ typed
  | .call span callee typeArgs args, t, h => by
    simp only [value, ok_bind, ok_pure] at h
    obtain ⟨callee', hc, args', ha, rfl⟩ := h
    have hc := value_becomes within sure callee callee' hc
    have ha := values_become within sure args args' ha
    have same := hc.calls span typeArgs _ _ (Becomes.firstType?_eq ha) (Becomes.firstOperand_eq ha)
    exact {
      settled := .call hc.settled (Becomes.all_settled ha)
      typed := same.symm
      same
      names := append_subset_append hc.names (Becomes.all_names ha)
      index := rfl
      results := by simp only [callResults?, hc.called]
      operand := rfl
      called := rfl
      calls := fun _ _ _ _ _ _ => rfl
      callFree := fun h => by simp [Expr.isCallFree] at h }
  | .index span base i, ⟨_, _⟩, h => by
    have typed := value_type within.outer _ _ h
    obtain ⟨b, i', hb, hi, rfl⟩ := ok_value_index h
    have hb := value_becomes within sure base b hb
    have hi := value_becomes within sure i i' hi
    have same : c.typeOf? (.index span b.expr i'.expr) = c.typeOf? (.index span base i) := by
      simp only [typeOf?, hb.same]
    exact {
      settled := .index hb.settled hi.settled
      typed := typed.trans same.symm
      same
      names := append_subset_append hb.names hi.names
      index := rfl
      results := rfl
      operand := rfl
      called := rfl
      calls := fun _ _ _ _ _ _ => rfl
      callFree := fun h =>
        Bool.and_eq_true_iff.2 ((Bool.and_eq_true_iff.1 h).imp hb.callFree hi.callFree) }
  | .binary span op left right, t, h => by
    obtain ⟨l, l', hl, hr, rfl⟩ := ok_value_binary h
    have hl := value_becomes within sure left l hl
    have hr := value_becomes within sure right l' hr
    have same : c.typeOf? (.binary span op l.expr l'.expr) = c.typeOf? (.binary span op left right) := by
      simp only [typeOf?, hl.same, hr.same]
    exact {
      settled := .binary hl.settled hr.settled
      typed := same.symm
      same
      names := append_subset_append hl.names hr.names
      index := rfl
      results := rfl
      operand := rfl
      called := rfl
      calls := fun _ _ _ _ _ _ => rfl
      callFree := fun h =>
        Bool.and_eq_true_iff.2 ((Bool.and_eq_true_iff.1 h).imp hl.callFree hr.callFree) }
  | .unary span op operand, ⟨_, _⟩, h => by
    have typed := value_type within.outer _ _ h
    obtain ⟨o, ho, rfl⟩ := ok_value_unary h
    have ho := value_becomes within sure operand o ho
    have same : c.typeOf? (.unary span op o.expr) = c.typeOf? (.unary span op operand) := by
      simp only [typeOf?, ho.same]
    exact ⟨.unary ho.settled, typed.trans same.symm, same, ho.names, rfl, rfl, rfl, rfl,
      fun _ _ _ _ _ _ => rfl, ho.callFree⟩
  | .paren span inner, t, h => by
    obtain ⟨i, hi, rfl⟩ := ok_value_paren h
    have hi := value_becomes within sure inner i hi
    exact ⟨.paren hi.settled, hi.typed, hi.same, hi.names, rfl, rfl, rfl, rfl,
      fun _ _ _ _ _ _ => by rw [typeOf?_call_paren, typeOf?_call_paren, hi.operand], hi.callFree⟩
  | .composite span type list, ⟨_, _⟩, h => by
    have typed := value_type within.outer _ _ h
    obtain ⟨list', hl, rfl⟩ := ok_value_composite h
    obtain ⟨settled, names, callFree⟩ := elements_become within sure list list' hl
    exact ⟨.composite settled, typed, rfl, names, rfl, rfl, rfl, rfl, fun _ _ _ _ _ _ => rfl, callFree⟩
termination_by structural e => e

theorem values_become (within : r'.Within r c.catalog) (sure : c.Unmistakable) :
    (es : List Expr) → (ts : List TypedExpr) → r.values c es = .ok ts → List.Forall₂ (r'.Becomes c) es ts
  | [], _, h => ok_pure.1 h ▸ .nil
  | e :: rest, ts, h => by
    simp only [values, ok_bind, ok_pure] at h
    obtain ⟨t, ht, ts', hts, rfl⟩ := h
    exact .cons (value_becomes within sure e t ht) (values_become within sure rest ts' hts)
termination_by structural es => es

theorem elements_become (within : r'.Within r c.catalog) (sure : c.Unmistakable) :
    (es : List Element) → (es' : List Element) → r.elements c es = .ok es' →
    r'.elements c es' = .ok es' ∧ namesOfElements es' ⊆ namesOfElements es ∧
      (Expr.areCallFree es' → Expr.areCallFree es)
  | [], _, h => by
    cases ok_pure.1 h
    exact ⟨rfl, List.Subset.refl _, id⟩
  | .positional v :: rest, _, h => by
    obtain ⟨t, rest', ht, hrest, rfl⟩ := ok_elements_positional h
    have ht := value_becomes within sure v t ht
    obtain ⟨settled, names, callFree⟩ := elements_become within sure rest rest' hrest
    refine ⟨?_, append_subset_append ht.names names, fun h =>
      Bool.and_eq_true_iff.2 ((Bool.and_eq_true_iff.1 h).imp ht.callFree callFree)⟩
    rw [elements, ht.settled, settled]
    rfl
  | .keyed k v :: rest, _, h => by
    obtain ⟨key, t, rest', hk, ht, hrest, rfl⟩ := ok_elements_keyed h
    have hk := value_becomes within sure k key hk
    have ht := value_becomes within sure v t ht
    obtain ⟨settled, names, callFree⟩ := elements_become within sure rest rest' hrest
    refine ⟨?_, append_subset_append (append_subset_append hk.names ht.names) names, ?_⟩
    · rw [elements, hk.settled, ht.settled, settled]
      rfl
    · simp only [Expr.areCallFree, Bool.and_eq_true]
      exact fun h => ⟨⟨hk.callFree h.1.1, ht.callFree h.1.2⟩, callFree h.2⟩
termination_by structural es => es

end

end RedirectContext

end FieldAccess
