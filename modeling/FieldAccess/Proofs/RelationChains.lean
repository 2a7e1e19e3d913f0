import FieldAccess.Proofs.BoundNames
import FieldAccess.Proofs.DeclaredTypes
import FieldAccess.Proofs.ReadTypes
import FieldAccess.Proofs.ScopeContents

namespace FieldAccess

namespace FieldInfo

-- A value of the type may be written to the field, as far as the type is known.
def Takes (info : FieldInfo) (type : Option StaticType) : Prop :=
  ∀ found, type = some found → info.accepts found

variable {settings : Settings} {enums : EnumTable} {info : FieldInfo} {target : String}

-- A relation to one entity is declared with a type that refers to the entity.
theorem Backed.declared_one (backed : info.Backed settings enums (.relation .single target)) :
    ∃ type, info.declaredType? = some type ∧ type.namedTarget? = some target := by
  rcases backed.declared_relation with declared | declared
  · exact ⟨_, declared, rfl⟩
  · exact ⟨_, declared, rfl⟩

-- The elements of a relation to many entities refer to them.
theorem Backed.declared_many (backed : info.Backed settings enums (.relation .multi target)) :
    ∃ type element, info.declaredType? = some type ∧ type.element? = some element ∧
      element.namedTarget? = some target := by
  rcases backed.declared_relation with declared | declared
  · exact ⟨_, _, declared, rfl, rfl⟩
  · exact ⟨_, _, declared, rfl, rfl⟩

end FieldInfo

namespace Catalog

variable {settings : Settings} {enums : EnumTable} {c : Catalog} {entity member target : String}
  {info : FieldInfo}

theorem backed_of_field? (built : EntitiesBuilt settings enums c.entities)
    (found : c.field? entity member = some info) {class_ : Classification}
    (classified : info.classification? = some class_) : info.Backed settings enums class_ := by
  obtain ⟨e, he, -, hi⟩ := mem_of_field? found
  exact (built.fields e he).backed info hi class_ classified

theorem target_of_field? (found : c.field? entity member = some info) {multiplicity : Multiplicity}
    (classified : info.classification? = some (.relation multiplicity target)) :
    target ∈ c.relationTargets entity := by
  obtain ⟨e, he, hf⟩ := Option.bind_eq_some_iff.1 found
  rw [relationTargets_eq he, EntityFields.relationTargets, List.mem_filterMap]
  exact ⟨info, List.mem_of_find?_eq_some hf, by rw [classified]; rfl⟩

end Catalog

namespace RedirectContext

-- The expression leads from a variable along relations to an entity, and the other one calls their
-- accessors: each field belongs to the entity reached before it, and refers to one entity, or to many
-- of which an index takes one.
inductive Leads (r : RedirectContext) (c : TypeContext) (x root : String) :
    String → Expr → Expr → Prop
  | start {span : Span} : Leads r c x root root (.ident span x) (.ident span x)
  | one {entity target : String} {e out : Expr} {info : FieldInfo} {span : Span}
      (before : Leads r c x root entity e out)
      (found : c.catalog.field? entity info.name = some info)
      (related : info.classification? = some (.relation .single target)) :
      Leads r c x root target (.select span e info.name) (info.read out span).expr
  | item {entity target : String} {e out i : Expr} {info : FieldInfo} {span at_ : Span}
      {index : TypedExpr} (before : Leads r c x root entity e out)
      (found : c.catalog.field? entity info.name = some info)
      (related : info.classification? = some (.relation .multi target))
      (position : r.value c i = .ok index) :
      Leads r c x root target (.index at_ (.select span e info.name) i)
        (.index at_ (info.read out span).expr index.expr)

-- The statement becomes the plan, in a block or in a header.
def PlannedAs (r : RedirectContext) (c : TypeContext) (span : Span) (temps : Temporaries) (s : Stmt)
    (p : AssignPlan) (temps' : Temporaries) : Prop :=
  (∀ elseIf, r.stmt c elseIf s temps = .ok (p.statements, temps')) ∧
    ∀ place, r.header c place (some s) temps = (r.relocate place span p).map (·, temps')

-- A statement that changes a target by an operation with a value.
inductive Updates (span : Span) (target : Expr) : BinaryOp → Expr → Stmt → Prop
  | compound (op : BinaryOp) (value : Expr) :
      Updates span target op value (.assign span [target] (.compound op) [value])
  | step (increment : Bool) :
      Updates span target (stepOp increment) (.literal span (.int 1)) (.step span target increment)

-- The expression is read by a call of the field's accessor on what stands before it, and written by
-- one call of the mutator on the same. If the expression itself calls something and is changed by an
-- operation, a variable keeps what stands before it, and is read and written.
structure AccessedAs (r : RedirectContext) (c : TypeContext) (e before : Expr) (info : FieldInfo)
    (span : Span) : Prop where
  read : r.value c e = .ok (info.read before span)
  assigned : ∀ s at_ value v temps, s.expand = .assign at_ [e] .assign [value] →
    r.value c value = .ok v → info.Takes v.type →
    r.PlannedAs c at_ temps s { mutators := [info.write r.settings before v at_] } temps
  updated : ∀ s at_ op value v temps, Updates at_ e op value s → ¬e.isCallFree →
    r.value c value = .ok v → info.Takes (info.declaredType?.map .known) →
    let kept := Temporaries.fresh before.nameHint temps
    let temp : Expr := .ident at_ kept.1
    r.PlannedAs c at_ temps s
      { bindings := [.assign at_ [temp] .define [before]]
        mutators := [info.write r.settings temp (info.updated at_ before temps op v.expr) at_] } kept.2

variable {r : RedirectContext} {c : TypeContext} {x root entity : String} {e out : Expr}
  {info : FieldInfo} {span : Span} {temps : Temporaries}

-- What a chain stands for while it is redirected: the calls, as a value that refers to the entity.
structure Reached (r : RedirectContext) (c : TypeContext) (root entity : String) (e out : Expr) :
    Prop where
  value : ∃ type, r.value c e = .ok ⟨out, some (.known type)⟩ ∧ type.namedTarget? = some entity
  reaches : c.catalog.hasEntity entity → c.catalog.Reaches root entity

section

variable (hr : r.scope.catalog = c.catalog)
  (spans : ∀ entity, c.catalog.Reaches root entity → entity ∈ r.scope.entities)

include hr spans in
-- A field of the entity is replaced, whether it is read or written.
theorem Reached.replaced (h : r.Reached c root entity e out)
    (found : c.catalog.field? entity info.name = some info) (proxied : info.isProxied) (use : Use) :
    Visit.Replaced r ⟨c, use, span, e, info.name⟩ out info := by
  obtain ⟨type, source, named⟩ := h.value
  have listed := spans entity (h.reaches (Catalog.hasEntity_of_field? found))
  exact Visit.replaced_of_mem (v := ⟨c, use, span, e, info.name⟩) hr rfl source rfl named found listed
    proxied

include hr spans in
theorem Reached.read (h : r.Reached c root entity e out)
    (found : c.catalog.field? entity info.name = some info) (proxied : info.isProxied) :
    r.value c (.select span e info.name) = .ok (info.read out span) :=
  h.replaced hr spans found proxied .read

include hr spans in
theorem Reached.aims (h : r.Reached c root entity e out)
    (found : c.catalog.field? entity info.name = some info) (proxied : info.isProxied) :
    r.target c (.select span e info.name) = .ok (.field out info) :=
  h.replaced hr spans found proxied .write

theorem Reached.step {target : String} {e' out' : Expr} {multiplicity : Multiplicity}
    (h : r.Reached c root entity e out) (found : c.catalog.field? entity info.name = some info)
    (related : info.classification? = some (.relation multiplicity target))
    (value : ∃ type, r.value c e' = .ok ⟨out', some (.known type)⟩ ∧
      type.namedTarget? = some target) : r.Reached c root target e' out' where
  value := value
  reaches := (h.reaches (Catalog.hasEntity_of_field? found)).step
    (Catalog.target_of_field? found related)

include hr spans in
-- The inner calls carry the type that the next field is looked up with.
theorem Leads.reached {settings : Settings} {enums : EnumTable}
    (built : Catalog.EntitiesBuilt settings enums c.catalog.entities)
    (lookup : ∃ type, c.lookup? x = some type ∧ type.namedTarget? = some root)
    (h : r.Leads c x root entity e out) : r.Reached c root entity e out := by
  induction h with
  | start =>
    obtain ⟨type, known, named⟩ := lookup
    refine ⟨⟨type, ?_, named⟩, .root⟩
    rw [value, show TypeOracle.typeOf? c (.ident _ x) = (c.lookup? x).map .known from rfl, known]
    rfl
  | one before found related ih =>
    have proxied := FieldInfo.isProxied_iff.2 ⟨_, related⟩
    obtain ⟨type, declared, named⟩ :=
      (Catalog.backed_of_field? built found related).declared_one
    refine ih.step found related ⟨type, ?_, named⟩
    rw [ih.read hr spans found proxied, FieldInfo.read, declared]
    rfl
  | item before found related position ih =>
    have proxied := FieldInfo.isProxied_iff.2 ⟨_, related⟩
    obtain ⟨type, element, declared, elements, named⟩ :=
      (Catalog.backed_of_field? built found related).declared_many
    refine ih.step found related ⟨element, ?_, named⟩
    rw [value, ih.read hr spans found proxied, position]
    simp only [FieldInfo.read, declared]
    exact congrArg (fun type => Except.ok (TypedExpr.mk _ (Option.or (type.map .known) _))) elements

end

theorem checkWrite_of_takes {type : Option StaticType} (takes : info.Takes type) :
    r.checkWrite info type span = .ok () := by
  unfold checkWrite
  split
  case h_1 expected found _ =>
    rw [if_pos (takes found rfl)]
    rfl
  case h_2 => rfl

theorem plannedAs_of_plan {s : Stmt} {p : AssignPlan} {temps' : Temporaries}
    {planning : Redirecting AssignPlan} (planned : planning temps = .ok (p, temps'))
    (inBlock : ∀ elseIf, r.stmt c elseIf s = do return (← planning).statements)
    (inHeader : ∀ place, r.header c place (some s) = (do r.relocate place span (← planning))) :
    r.PlannedAs c span temps s p temps' := by
  refine ⟨fun elseIf => ?_, fun place => ?_⟩
  · rw [inBlock, Redirecting.bind_of_ok planned]
    rfl
  · rw [inHeader, Redirecting.bind_of_ok planned]
    cases r.relocate place span p <;> rfl

section

variable {value receiver : Expr} {v : TypedExpr} {s : Stmt} {op : BinaryOp}
  (aims : r.target c e = .ok (.field receiver info)) (source : r.value c value = .ok v)
include aims source

-- One value is written by one call of the mutator.
theorem plannedAs_assign (expands : s.expand = .assign span [e] .assign [value])
    (takes : info.Takes v.type) (temps : Temporaries) :
    r.PlannedAs c span temps s { mutators := [info.write r.settings receiver v span] } temps := by
  have targets : r.targets c [e] = .ok [.field receiver info] := ok_mapM.2 (.cons aims .nil)
  have sources : r.values c [value] = .ok [v] := ok_values.2 (.cons source .nil)
  have checked : r.checkWrites span [.field receiver info] [v] = .ok () := by
    rw [checkWrites, checkWrite_of_takes takes]
    rfl
  obtain ⟨inBlock, inHeader⟩ := planned_of_expand (r := r) (o := c) expands
  refine plannedAs_of_plan ?_ inBlock inHeader
  rw [planAssign, Redirecting.bind_lift targets, Redirecting.bind_lift sources]
  exact Redirecting.bind_lift checked _

-- If the target calls something, its receiver is kept in a variable, through which the field is read
-- and written.
theorem plannedAs_update (updates : Updates span e op value s) (calls : ¬e.isCallFree)
    (takes : info.Takes (info.declaredType?.map .known)) (temps : Temporaries) :
    let temp : Expr := .ident span (Temporaries.fresh receiver.nameHint temps).1
    r.PlannedAs c span temps s
      { bindings := [.assign span [temp] .define [receiver]]
        mutators := [info.write r.settings temp (info.updated span receiver temps op v.expr) span] }
      (Temporaries.fresh receiver.nameHint temps).2 := by
  intro temp
  have named : (Temporaries.fresh receiver.nameHint temps).1 ≠ "_" :=
    Naming.unique_ne_blank (Naming.localVariable_ne_blank _) _
  have held : ((captureOperand span receiver temps).1.2.statement? span).toList =
      [.assign span [temp] .define [receiver]] := by
    rw [Captured.statement?, if_neg (by simpa [captureOperand, state_bind, state_pure] using named)]
    rfl
  have planned (form : Expr → Expr → Stmt) : r.planCompound c span e op value form temps =
      .ok (⟨[.assign span [temp] .define [receiver]], none, false,
        [info.write r.settings temp (info.updated span receiver temps op v.expr) span]⟩,
        (Temporaries.fresh receiver.nameHint temps).2) := by
    rw [planCompound, Redirecting.bind_lift aims, Redirecting.bind_lift source]
    dsimp only
    rw [Redirecting.bind_modifyGet, held]
    exact Redirecting.bind_lift (checkWrite_of_takes takes) _
  cases updates with
  | compound =>
    refine plannedAs_of_plan
      (planned fun target value => .assign span [target] (.compound op) [value]) (fun _ => ?_)
      fun _ => ?_
    · rw [stmt, plan, if_neg (by simpa [Stmt.areRepeatable] using calls)]
    · rw [header, plan, if_neg (by simpa [Stmt.areRepeatable] using calls)]
  | step increment =>
    refine plannedAs_of_plan (planned fun target _ => .step span target increment)
      (fun _ => ?_) fun _ => ?_
    · rw [stmt, planStep, if_neg calls]
    · rw [header, planStep, if_neg calls]

end

section

variable (hr : r.scope.catalog = c.catalog)
  (spans : ∀ entity, c.catalog.Reaches root entity → entity ∈ r.scope.entities)

include hr spans in
theorem Reached.accessed (h : r.Reached c root entity e out)
    (found : c.catalog.field? entity info.name = some info) (proxied : info.isProxied) :
    r.AccessedAs c (.select span e info.name) out info span where
  read := h.read hr spans found proxied
  assigned _ _ _ _ temps expands source takes :=
    plannedAs_assign (h.aims hr spans found proxied) source expands takes temps
  updated _ _ _ _ _ temps updates calls source takes :=
    plannedAs_update (h.aims hr spans found proxied) source updates calls takes temps

end

end RedirectContext

namespace FuncDecl

variable {f : FuncDecl} {catalog : Catalog} {methods : MethodTable} {scope : RedirectScope}

-- The scope of a method spans what relations lead to from its receiver.
theorem spans_of_receiver {root : String} (hs : f.redirectScope catalog methods = .ok scope)
    (own : f.receiverEntity? = some root) {entity : String} (reached : catalog.Reaches root entity) :
    entity ∈ scope.entities :=
  ((mem_redirectScope hs).2 entity).2 ⟨root, .inl (by rw [own]; rfl), reached⟩

-- A chain of relations that starts at the receiver is read through the accessors of its fields, one
-- after the other, and written by one call of the last field's mutator on what the accessors before it
-- give. This holds wherever no statement before it has bound the receiver's name, in the blocks around
-- it, and what the chain becomes stands in the redirected method.
theorem relation_chain_resolves {schema : Schema} {settings : Settings} {recv : Param} {root : String}
    (built : catalog = (Catalog.build schema settings {}).value) (received : f.receiver = some recv)
    (own : recv.type.namedTarget? = some root) (known : catalog.hasEntity root)
    (named : recv.name ≠ "_") (apart : ∀ p ∈ f.params, p.name ≠ recv.name) :
    ∃ scope, f.redirectScope catalog methods = .ok scope ∧
      let r : RedirectContext := ⟨f.name, scope, settings⟩
      ∀ v ∈ f.points catalog methods, recv.name ∉ v.oracle.bound →
      ∀ entity out info, r.Leads v.oracle.types recv.name root entity v.base out →
        catalog.field? entity v.member = some info → info.isProxied →
        r.AccessedAs v.oracle.types v.selector out info v.span ∧
        ∀ g, f.redirect catalog methods settings = .ok g →
          (v.forget Point.types).StandsIn out info g.body.accesses := by
  have ofRoot : f.receiverEntity? = some root := by
    rw [receiverEntity?, received, Option.bind_some, own]
  obtain ⟨scope, hs⟩ := exists_redirectScope ofRoot known
  refine ⟨scope, hs, ?_⟩
  intro r v hv free entity out info leads found proxied
  have visited := mem_visits_of_points hv
  have typed : v.oracle.types.catalog = catalog := visits_catalog visited
  have lookup := lookup?_of_not_bound received named apart hv free
  have spec := Catalog.build_spec schema settings
  rw [← built, ← typed] at spec
  have hr : r.scope.catalog = v.oracle.types.catalog := (mem_redirectScope hs).1.trans typed.symm
  have spans : ∀ entity, v.oracle.types.catalog.Reaches root entity → entity ∈ r.scope.entities :=
    fun _ reaches => spans_of_receiver hs ofRoot (typed ▸ reaches)
  have reached := leads.reached hr spans spec ⟨_, lookup, own⟩
  have same : info.name = v.member := Catalog.name_of_field? found
  rw [← typed, ← same] at found
  have accessed : r.AccessedAs v.oracle.types (.select v.span v.base info.name) out info v.span :=
    reached.accessed hr spans found proxied
  have replaced : Visit.Replaced r ⟨v.oracle.types, v.use, v.span, v.base, info.name⟩ out info :=
    reached.replaced hr spans found proxied v.use
  rw [same] at accessed replaced
  exact ⟨accessed, fun g hg => replaced.standsIn (visits_redirectedIn hs hg _ visited)⟩

-- Two entities with relations to each other: an order has many items, an item one order.
def itemsSchema : Schema where
  entities :=
    [{ name := "Order", fields := [{ name := "items", type := "[]*Item" },
       { name := "total", type := "int" }] },
     { name := "Item", fields := [{ name := "order", type := "Order" }] }]

-- In `func (o *Order) F(i int) { o.items[i].order.total = 7 }` the chain becomes
-- `o.Items()[i].Order().Total()` or, where it is written to, a call of `SetTotal`.
theorem relation_chain_resolves_items :
    let catalog := (Catalog.build itemsSchema .standard {}).value
    let o : Expr := .ident .nowhere "o"
    let i : Expr := .ident .nowhere "i"
    let seven : Expr := .literal .nowhere (.int 7)
    let item : Expr := .index .nowhere (.select .nowhere o "items") i
    let chain : Expr := .select .nowhere (.select .nowhere item "order") "total"
    let s : Stmt := .assign .nowhere [chain] .assign [seven]
    let f : FuncDecl := ⟨none, some ⟨"o", .pointer (.named "Order")⟩, "F", [], [⟨"i", .int⟩], [],
      .mk .nowhere [s], .nowhere⟩
    let call (e : Expr) (name : String) (args : List Expr) : Expr :=
      .call .nowhere (.select .nowhere e name) [] args
    let order := call (.index .nowhere (call o "Items" []) i) "Order" []
    let c := TypeContext.ofMethod catalog ⟨[f]⟩ f.expand
    ∃ scope, f.redirectScope catalog ⟨[f]⟩ = .ok scope ∧
      let r : RedirectContext := ⟨"F", scope, .standard⟩
      r.value c chain = .ok ⟨call order "Total" [], some (.known .int)⟩ ∧
      ∀ elseIf temps,
        r.stmt c elseIf s temps = .ok ([.expr (call order "SetTotal" [seven])], temps) := by
  intro catalog o i seven item chain s f call order c
  let items : FieldInfo :=
    ⟨"Order", { name := "items", type := "[]*Item" }, .proxied (.relation .multi "Item")⟩
  let total : FieldInfo :=
    ⟨"Order", { name := "total", type := "int" }, .proxied (.primitive "int" "GetInt")⟩
  let toOrder : FieldInfo :=
    ⟨"Item", { name := "order", type := "Order" }, .proxied (.relation .single "Order")⟩
  have found : catalog.field? "Order" items.name = some items := by decide +kernel
  have found' : catalog.field? "Item" toOrder.name = some toOrder := by decide +kernel
  have found'' : catalog.field? "Order" total.name = some total := by decide +kernel
  obtain ⟨scope, hs, resolves⟩ := @relation_chain_resolves f catalog ⟨[f]⟩ itemsSchema .standard
    ⟨"o", .pointer (.named "Order")⟩ "Order" rfl rfl rfl (Catalog.hasEntity_of_field? found)
    (by decide) (by decide)
  let r : RedirectContext := ⟨"F", scope, .standard⟩
  have catalog' : c.catalog = catalog := TypeContext.ofMethod_catalog ..
  let v : Visit Point := ⟨⟨c, []⟩, .write, .nowhere, .select .nowhere item "order", "total"⟩
  have visited : v ∈ f.points catalog ⟨[f]⟩ := List.mem_cons_self ..
  rw [← catalog'] at found found'
  have start : r.Leads c "o" "Order" "Order" o o := .start
  have toItem : r.Leads c "o" "Order" "Item" item _ := start.item found rfl rfl
  have leads : r.Leads c "o" "Order" "Order" (.select .nowhere item "order") _ :=
    toItem.one found' rfl
  obtain ⟨⟨read, assigned, -⟩, -⟩ :=
    resolves v visited List.not_mem_nil "Order" _ total leads found'' rfl
  have called : items.accessor = "Items" ∧ toOrder.accessor = "Order" ∧ total.accessor = "Total" ∧
      total.mutator = "SetTotal" := by decide
  have declared : total.declaredType? = some .int := by decide +kernel
  have takes : total.Takes (some .untypedInt) := by
    rintro _ ⟨⟩
    decide +kernel
  have written := assigned s .nowhere seven ⟨seven, some .untypedInt⟩
  simp only [FieldInfo.read, FieldInfo.write, called, declared] at read written
  exact ⟨scope, hs, read, fun elseIf temps => (written temps rfl rfl takes).1 elseIf⟩

-- The statement `for _, o := range xs { _ = o }`, after which `o` is again what it was before.
def overItems : Stmt :=
  .range .nowhere (some (.ident .nowhere "_")) (some (.ident .nowhere "o")) true
    (.ident .nowhere "xs")
    (.mk .nowhere [.assign .nowhere [.ident .nowhere "_"] .assign [.ident .nowhere "o"]])

-- The method `func (o *Order) F(xs []int) int`, which runs a statement and returns a value.
def returningAfter (s : Stmt) (e : Expr) : FuncDecl :=
  onOrder [⟨"xs", .slice .int⟩] [s, .ret .nowhere [e]]

-- The loop declares nothing in the block that it stands in, but the walk takes the `o` after it for
-- the variable of the loop, and `o.total` stays. In a block of its own the loop does no harm.
theorem relation_chain_lost_after_range :
    let catalog := (Catalog.build ledgerSchema .standard {}).value
    let field : Expr := .select .nowhere (.ident .nowhere "o") "total"
    let read : Expr := .call .nowhere (.select .nowhere (.ident .nowhere "o") "Total") [] []
    let enclosed : Stmt := .block (.mk .nowhere [overItems])
    let c := TypeContext.ofMethod catalog ⟨[]⟩ (returningAfter overItems field)
    overItems.declared = [] ∧
    c.lookup? "o" = some pointerToOrder ∧ (c.declare overItems).lookup? "o" = some .int ∧
    (returningAfter overItems field).redirect catalog ⟨[]⟩ .standard =
      .ok (returningAfter overItems field) ∧
    (returningAfter enclosed field).redirect catalog ⟨[]⟩ .standard =
      .ok (returningAfter enclosed read) := by
  rw [build_ledgerSchema]
  refine ⟨rfl, rfl, rfl, ?_, ?_⟩
  · rw [redirect_eq, redirectScope_alone (e := ledgerOrder) rfl (by decide) (by decide)]
    rfl
  · rw [redirect_eq, redirectScope_alone (e := ledgerOrder) rfl (by decide) (by decide)]
    rfl

end FuncDecl

end FieldAccess
