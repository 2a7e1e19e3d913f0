import FieldAccess.Proofs.ScopeClosure
import FieldAccess.Proofs.SelectorWalk

namespace FieldAccess

namespace Visit

section

variable {σ : Type} {o : σ}

mutual

theorem oracle_of_mem_reads {v : Visit σ} : (e : Expr) → v ∈ reads o e → v.oracle = o
  | .ident _ _, h | .literal _ _, h | .typeOperand _ _, h => by simp [reads] at h
  | .select _ base _, h => by
    rcases List.mem_cons.1 h with rfl | h
    · rfl
    · exact oracle_of_mem_reads base h
  | .call _ callee _ args, h => by
    rcases List.mem_append.1 h with h | h
    · exact oracle_of_mem_reads callee h
    · exact oracle_of_mem_readsOfList args h
  | .index _ base i, h => by
    rcases List.mem_append.1 h with h | h
    · exact oracle_of_mem_reads base h
    · exact oracle_of_mem_reads i h
  | .binary _ _ left right, h => by
    rcases List.mem_append.1 h with h | h
    · exact oracle_of_mem_reads left h
    · exact oracle_of_mem_reads right h
  | .unary _ _ operand, h => oracle_of_mem_reads operand h
  | .paren _ inner, h => oracle_of_mem_reads inner h
  | .composite _ _ elements, h => oracle_of_mem_readsOfElements elements h

theorem oracle_of_mem_readsOfList {v : Visit σ} :
    (es : List Expr) → v ∈ readsOfList o es → v.oracle = o
  | [], h => by simp [readsOfList] at h
  | e :: rest, h => by
    rcases List.mem_append.1 h with h | h
    · exact oracle_of_mem_reads e h
    · exact oracle_of_mem_readsOfList rest h

theorem oracle_of_mem_readsOfElements {v : Visit σ} :
    (es : List Element) → v ∈ readsOfElements o es → v.oracle = o
  | [], h => by simp [readsOfElements] at h
  | .positional value :: rest, h => by
    rcases List.mem_append.1 h with h | h
    · exact oracle_of_mem_reads value h
    · exact oracle_of_mem_readsOfElements rest h
  | .keyed key value :: rest, h => by
    simp only [readsOfElements, List.mem_append] at h
    rcases h with (h | h) | h
    · exact oracle_of_mem_reads key h
    · exact oracle_of_mem_reads value h
    · exact oracle_of_mem_readsOfElements rest h

end

theorem oracle_of_mem_writes {v : Visit σ} (e : Expr) (h : v ∈ writes o e) : v.oracle = o := by
  induction e using writes.induct with
  | case1 => simp [writes] at h
  | case2 _ inner ih => exact ih h
  | case3 span base member =>
    rcases List.mem_cons.1 h with rfl | h
    · rfl
    · exact oracle_of_mem_reads base h
  | case4 e h₁ h₂ h₃ =>
    rw [writes.eq_4 o e h₁ h₂ h₃] at h
    exact oracle_of_mem_reads e h

theorem oracle_of_mem_ofAssign {v : Visit σ} {targets values : List Expr}
    (h : v ∈ ofAssign o targets values) : v.oracle = o := by
  rcases List.mem_append.1 h with h | h
  · obtain ⟨e, _, h⟩ := List.mem_flatMap.1 h
    exact oracle_of_mem_writes e h
  · exact oracle_of_mem_readsOfList values h

theorem oracle_of_mem_ofSimple {v : Visit σ} {s : Stmt} (h : v ∈ ofSimple o s) : v.oracle = o := by
  cases s <;> try cases h
  case expr e => exact oracle_of_mem_reads e h
  case assign span targets op values =>
    cases op with
    | assign => exact oracle_of_mem_ofAssign h
    | define => exact oracle_of_mem_readsOfList values h
    | compound op =>
      simp only [ofSimple] at h
      split at h
      · exact oracle_of_mem_ofAssign h
      · split at h
        · rcases List.mem_append.1 h with h | h
          · exact oracle_of_mem_writes _ h
          · exact oracle_of_mem_reads _ h
        · cases h
  case step span target increment =>
    simp only [ofSimple] at h
    split at h
    · exact oracle_of_mem_ofAssign h
    · exact oracle_of_mem_writes target h

theorem oracle_of_mem_header {v : Visit σ} {s : Option Stmt}
    (h : v ∈ s.toList.flatMap (ofSimple o)) : v.oracle = o :=
  have ⟨_, _, h⟩ := List.mem_flatMap.1 h
  oracle_of_mem_ofSimple h

theorem oracle_of_mem_option {v : Visit σ} {e : Option Expr}
    (h : v ∈ e.toList.flatMap (reads o)) : v.oracle = o :=
  have ⟨e, _, h⟩ := List.mem_flatMap.1 h
  oracle_of_mem_reads e h

theorem oracle_of_mem_targets {v : Visit σ} {e : Option Expr}
    (h : v ∈ e.toList.flatMap (writes o)) : v.oracle = o :=
  have ⟨e, _, h⟩ := List.mem_flatMap.1 h
  oracle_of_mem_writes e h

end

section

variable {σ : Type} [TypeOracle σ] {P : σ → Prop}

-- A property that no declaration takes away.
def Stable (P : σ → Prop) : Prop :=
  ∀ o s, P o → P (TypeOracle.declare o s)

theorem Stable.declareHeader {o : σ} (hP : Stable P) (s : Option Stmt) (ho : P o) :
    P (TypeOracle.declareHeader o s) := by
  cases s
  · exact ho
  · exact hP o _ ho

mutual

-- A stable property holds wherever a selector stands.
theorem oracle_of_mem_ofStmt {o : σ} {v : Visit σ} (hP : Stable P) (ho : P o) :
    (s : Stmt) → v ∈ ofStmt o s → P v.oracle
  | .empty _, h | .breakLoop _, h | .continueLoop _, h => by simp [ofStmt] at h
  | .expr e, h => oracle_of_mem_reads e h ▸ ho
  | .assign span targets op values, h =>
    (oracle_of_mem_ofSimple (show v ∈ ofSimple o (.assign span targets op values) from h)) ▸ ho
  | .step span target increment, h =>
    (oracle_of_mem_ofSimple (show v ∈ ofSimple o (.step span target increment) from h)) ▸ ho
  | .var _ _ _ values, h | .ret _ values, h => oracle_of_mem_readsOfList values h ▸ ho
  | .block body, h => oracle_of_mem_ofBlock hP ho body h
  | .ifElse _ init cond body orElse, h => by
    have inner := hP.declareHeader init ho
    simp only [ofStmt, List.mem_append] at h
    rcases h with ((h | h) | h) | h
    · exact oracle_of_mem_header h ▸ ho
    · exact oracle_of_mem_reads cond h ▸ inner
    · exact oracle_of_mem_ofBlock hP inner body h
    · exact oracle_of_mem_ofBranch hP inner orElse h
  | .forLoop _ init cond post body, h => by
    have inner := hP.declareHeader init ho
    simp only [ofStmt, List.mem_append] at h
    rcases h with ((h | h) | h) | h
    · exact oracle_of_mem_header h ▸ ho
    · exact oracle_of_mem_option h ▸ inner
    · exact oracle_of_mem_header h ▸ inner
    · exact oracle_of_mem_ofBlock hP inner body h
  | .range span key value define iterable body, h => by
    have inner := hP o (.range span key value define iterable body) ho
    simp only [ofStmt, List.mem_append] at h
    rcases h with (h | h) | h
    · exact oracle_of_mem_reads iterable h ▸ ho
    · split at h
      · cases h
      · rcases List.mem_append.1 h with h | h
        · exact oracle_of_mem_targets h ▸ inner
        · exact oracle_of_mem_targets h ▸ inner
    · exact oracle_of_mem_ofBlock hP inner body h
  | .switch _ init tag cases, h => by
    have inner := hP.declareHeader init ho
    simp only [ofStmt, List.mem_append] at h
    rcases h with (h | h) | h
    · exact oracle_of_mem_header h ▸ ho
    · exact oracle_of_mem_option h ▸ inner
    · exact oracle_of_mem_ofCases hP inner cases h
termination_by structural s => s

theorem oracle_of_mem_ofBranch {o : σ} {v : Visit σ} (hP : Stable P) (ho : P o) :
    (s : Option Stmt) → v ∈ ofBranch o s → P v.oracle
  | none, h => by simp [ofBranch] at h
  | some s, h => by
    have : v ∈ ofStmt o s := by
      simp only [ofBranch] at h
      split at h
      · exact h
      · exact h
      · cases h
    exact oracle_of_mem_ofStmt hP ho s this
termination_by structural s => s

theorem oracle_of_mem_ofBlock {o : σ} {v : Visit σ} (hP : Stable P) (ho : P o) :
    (b : Block) → v ∈ ofBlock o b → P v.oracle
  | .mk _ statements, h => oracle_of_mem_ofStmts hP ho statements h
termination_by structural b => b

theorem oracle_of_mem_ofStmts {o : σ} {v : Visit σ} (hP : Stable P) (ho : P o) :
    (ss : List Stmt) → v ∈ ofStmts o ss → P v.oracle
  | [], h => by simp [ofStmts] at h
  | s :: rest, h => by
    rcases List.mem_append.1 h with h | h
    · exact oracle_of_mem_ofStmt hP ho s h
    · exact oracle_of_mem_ofStmts hP (hP o s ho) rest h
termination_by structural ss => ss

theorem oracle_of_mem_ofCases {o : σ} {v : Visit σ} (hP : Stable P) (ho : P o) :
    (cs : List Case) → v ∈ ofCases o cs → P v.oracle
  | [], h => by simp [ofCases] at h
  | .mk _ values body :: rest, h => by
    simp only [ofCases, List.mem_append] at h
    rcases h with (h | h) | h
    · exact oracle_of_mem_readsOfList values h ▸ ho
    · exact oracle_of_mem_ofStmts hP ho body h
    · exact oracle_of_mem_ofCases hP ho rest h
termination_by structural cs => cs

end

end

end Visit

namespace TypeContext

theorem bind_catalog (c : TypeContext) (b : LocalBinding) : (c.bind b).catalog = c.catalog := by
  simp only [bind]
  split <;> rfl

@[simp]
theorem bindAll_catalog (c : TypeContext) (bs : List LocalBinding) :
    (c.bindAll bs).catalog = c.catalog := by
  induction bs generalizing c with
  | nil => rfl
  | cons b bs ih => rw [bindAll, List.foldl_cons, ← bindAll, ih, bind_catalog]

theorem declare_catalog (c : TypeContext) (s : Stmt) :
    (TypeOracle.declare c s).catalog = c.catalog :=
  bindAll_catalog c _

theorem ofMethod_catalog (catalog : Catalog) (methods : MethodTable) (f : FuncDecl) :
    (ofMethod catalog methods f).catalog = catalog :=
  bindAll_catalog ⟨catalog, methods, []⟩ _

end TypeContext

namespace FuncDecl

variable (f : FuncDecl) (catalog : Catalog) (methods : MethodTable)

def visits : List (Visit TypeContext) :=
  Visit.ofBlock (TypeContext.ofMethod catalog methods f.expand) f.expand.body

variable {f catalog methods}

theorem visits_catalog {v : Visit TypeContext} (h : v ∈ f.visits catalog methods) :
    v.oracle.catalog = catalog := by
  refine Visit.oracle_of_mem_ofBlock (P := fun o => o.catalog = catalog) ?_ ?_ _ h
  · intro o s ho
    rw [TypeContext.declare_catalog, ho]
  · exact TypeContext.ofMethod_catalog ..

end FuncDecl

namespace Visit

variable (r : RedirectContext) (v : Visit TypeContext) (base : Expr)

-- The selector becomes a call of the accessor, or its place the receiver of the mutator.
def Replaced (info : FieldInfo) : Prop :=
  match v.use with
  | .read => r.value v.oracle v.selector = .ok (info.read base v.span)
  | .write => r.target v.oracle v.selector = .ok (.field base info)

-- The selector stays a selector.
def Kept : Prop :=
  match v.use with
  | .read => ∃ type, r.value v.oracle v.selector = .ok ⟨.select v.span base v.member, type⟩
  | .write => r.target v.oracle v.selector = .ok (.plain (.select v.span base v.member))

def Refused (error : RedirectError) : Prop :=
  match v.use with
  | .read => r.value v.oracle v.selector = .error error
  | .write => r.target v.oracle v.selector = .error error

-- What replaces the selector stands in the code.
def StandsIn (info : FieldInfo) (out : List Expr) : Prop :=
  match v.use with
  | .read => (info.read base v.span).expr ∈ out
  | .write => (Target.field base info).WrittenIn out

variable {r v}

section

variable {catalog : Catalog} {b : TypedExpr} {type : TypeExpr} {entity : String} {info : FieldInfo}
  (hr : r.scope.catalog = catalog) (hv : v.oracle.catalog = catalog)
  (hb : r.value v.oracle v.base = .ok b) (ht : b.type = some (.known type))
  (he : type.namedTarget? = some entity) (hf : catalog.field? entity v.member = some info)

include hr hv ht he hf

-- What a field of a known entity resolves to depends on the scope and the field's access alone.
theorem resolve_of_mem (h : entity ∈ r.scope.entities) :
    r.resolve v.oracle b.type v.member v.span =
      match info.access with
      | .proxied _ => .ok (.proxied info)
      | .direct => .ok (.direct info)
      | .unavailable => .error ⟨r.method, v.span, .missingAccessor info.entity info.name⟩ := by
  have isField : TypeOracle.isField v.oracle type v.member = true := by
    change type.namedTarget?.any (fun e => (v.oracle.catalog.field? e v.member).isSome) = true
    simp [he, hv, hf]
  simp only [RedirectContext.resolve, ht, Option.bind_some, StaticType.known?, he,
    RedirectScope.field?, RedirectScope.contains, List.contains_iff_mem.2 h, if_true, hr, hf,
    isField]
  cases info.access <;> rfl

omit hr hv hf in
theorem resolve_of_not_mem (h : entity ∉ r.scope.entities) :
    r.resolve v.oracle b.type v.member v.span = .ok .other := by
  simp [RedirectContext.resolve, ht, StaticType.known?, he, RedirectScope.field?,
    RedirectScope.contains, h, pure, Except.pure]

include hb

theorem replaced_of_mem (h : entity ∈ r.scope.entities) (hp : info.isProxied) :
    v.Replaced r b.expr info := by
  have resolved := resolve_of_mem hr hv ht he hf h
  obtain ⟨c, hc⟩ : ∃ c, info.access = .proxied c := by
    cases hx : info.access <;> simp_all [FieldInfo.isProxied, Access.isProxied,
      Access.classification?]
  rw [hc] at resolved
  simp only [Replaced, selector]
  split
  · simp [RedirectContext.value, hb, resolved, bind, Except.bind, pure, Except.pure]
  · simp [RedirectContext.target, hb, resolved, bind, Except.bind, pure, Except.pure]

theorem refused_of_mem (h : entity ∈ r.scope.entities) (hu : info.access = .unavailable) :
    v.Refused r ⟨r.method, v.span, .missingAccessor info.entity info.name⟩ := by
  have resolved := resolve_of_mem hr hv ht he hf h
  rw [hu] at resolved
  simp only [Refused, selector]
  split
  · simp [RedirectContext.value, hb, resolved, bind, Except.bind]
  · simp [RedirectContext.target, hb, resolved, bind, Except.bind]

omit hr hv hf in
theorem kept_of_not_mem (h : entity ∉ r.scope.entities) : v.Kept r b.expr := by
  have resolved := resolve_of_not_mem (v := v) ht he h
  simp only [Kept, selector]
  split
  · refine ⟨TypeOracle.typeOf? v.oracle (.select v.span v.base v.member), ?_⟩
    simp [RedirectContext.value, hb, resolved, bind, Except.bind, pure, Except.pure]
  · simp [RedirectContext.target, hb, resolved, bind, Except.bind, pure, Except.pure]

end

theorem Replaced.standsIn {out : List Expr} {base : Expr} {info : FieldInfo}
    (h : v.Replaced r base info) (hd : v.RedirectedIn r out) : v.StandsIn base info out := by
  cases hu : v.use <;> simp only [Replaced, RedirectedIn, StandsIn, hu] at *
  case read =>
    obtain ⟨t, ht, hm⟩ := hd
    obtain rfl := Except.ok.inj (h.symm.trans ht)
    exact hm.resolve_left (by simp [FieldInfo.read, Expr.isCallFree])
  case write =>
    obtain ⟨t, ht, hw⟩ := hd
    obtain rfl := Except.ok.inj (h.symm.trans ht)
    exact hw

theorem Refused.not_redirectedIn {out : List Expr} {error : RedirectError}
    (h : v.Refused r error) : ¬v.RedirectedIn r out := by
  intro hd
  cases hu : v.use <;> simp only [Refused, RedirectedIn, hu] at *
  case read =>
    obtain ⟨t, ht, _⟩ := hd
    cases h.symm.trans ht
  case write =>
    obtain ⟨t, ht, _⟩ := hd
    cases h.symm.trans ht

end Visit

namespace FuncDecl

variable {f g : FuncDecl} {catalog : Catalog} {methods : MethodTable} {settings : Settings}
  {scope : RedirectScope}

theorem visits_redirectedIn (hs : f.redirectScope catalog methods = .ok scope)
    (h : f.redirect catalog methods settings = .ok g) :
    ∀ v ∈ f.visits catalog methods, v.RedirectedIn ⟨f.name, scope, settings⟩ g.body.accesses := by
  intro v hv
  rw [redirect_eq, hs] at h
  simp only [Except.bind, redirectIn, ok_bind, ok_pure] at h
  obtain ⟨⟨body, temps⟩, hb, rfl⟩ := h
  exact RedirectContext.block_redirected _ hb v hv

-- A selector of a field that is reached with its entity known is redirected if and only if the
-- method touches the entity: if relations lead to it from the receiver's entity or from one that
-- the type of a name is or points to. The fields of all other entities are left as they are written.
theorem selector_redirected_iff_touches (hs : f.redirectScope catalog methods = .ok scope)
    {v : Visit TypeContext} (hv : v ∈ f.visits catalog methods) {b : TypedExpr} {type : TypeExpr}
    {entity : String} {info : FieldInfo}
    (hb : RedirectContext.value ⟨f.name, scope, settings⟩ v.oracle v.base = .ok b)
    (ht : b.type = some (.known type)) (he : type.namedTarget? = some entity)
    (hf : catalog.field? entity v.member = some info) :
    (f.Touches catalog methods entity →
      (info.isProxied → v.Replaced ⟨f.name, scope, settings⟩ b.expr info ∧
        ∀ g, f.redirect catalog methods settings = .ok g →
          v.StandsIn b.expr info g.body.accesses) ∧
      (info.access = .unavailable →
        v.Refused ⟨f.name, scope, settings⟩
          ⟨f.name, v.span, .missingAccessor info.entity info.name⟩ ∧
        ∀ g, f.redirect catalog methods settings ≠ .ok g)) ∧
    (¬f.Touches catalog methods entity → v.Kept ⟨f.name, scope, settings⟩ b.expr) := by
  obtain ⟨hc, mem⟩ := mem_redirectScope hs
  have hvc := visits_catalog hv
  refine ⟨fun touches => ⟨fun proxied => ?_, fun unavailable => ?_⟩, fun apart => ?_⟩
  · have replaced := Visit.replaced_of_mem (r := ⟨f.name, scope, settings⟩) hc hvc hb ht he hf
      ((mem entity).2 touches) proxied
    exact ⟨replaced, fun g h => replaced.standsIn (visits_redirectedIn hs h v hv)⟩
  · have refused := Visit.refused_of_mem (r := ⟨f.name, scope, settings⟩) hc hvc hb ht he hf
      ((mem entity).2 touches) unavailable
    exact ⟨refused, fun g h => refused.not_redirectedIn (visits_redirectedIn hs h v hv)⟩
  · exact Visit.kept_of_not_mem (r := ⟨f.name, scope, settings⟩) hb ht he
      (fun h => apart ((mem entity).1 h))

def ledgerSchema : Schema where
  entities :=
    [{ name := "Order", fields := [{ name := "total", type := "int" }] },
     { name := "Audit", fields := [{ name := "note", type := "string" }] }]

def auditNote : FieldInfo :=
  ⟨"Audit", { name := "note", type := "string" }, .proxied (.primitive "string" "GetString")⟩

def ledger : Catalog where
  entities :=
    [{ entity := { name := "Order", fields := [{ name := "total", type := "int" }] }
       fields :=
         [⟨"Order", { name := "total", type := "int" }, .proxied (.primitive "int" "GetInt")⟩] },
     { entity := { name := "Audit", fields := [{ name := "note", type := "string" }] }
       fields := [auditNote] }]

theorem build_ledgerSchema : (Catalog.build ledgerSchema .standard {}).value = ledger := by
  decide +kernel

def notedBy (param : Param) (base : Expr) : FuncDecl where
  doc := none
  receiver := some ⟨"o", .pointer (.named "Order")⟩
  name := "F"
  typeParams := []
  params := [param]
  results := [.string]
  body := .mk .nowhere [.ret .nowhere [.select .nowhere base "note"]]
  span := .nowhere

theorem receiverScope_notedBy (param : Param) (base : Expr) :
    (notedBy param base).receiverScope ledger = .ok ⟨ledger, ["Order"]⟩ := by
  have : RedirectScope.of? ledger "Order" = some ⟨ledger, ["Order"]⟩ := by
    simp only [RedirectScope.of?, RedirectScope.include?]
    rw [RedirectScope.explore_entity rfl rfl]
    exact congrArg (some ∘ RedirectScope.mk ledger) (RedirectScope.explore_nil ..)
  rw [receiverScope, show (notedBy param base).receiverEntity?.getD "" = "Order" from rfl, this]
  rfl

theorem include_order :
    (⟨ledger, ["Order"]⟩ : RedirectScope).includeIfEntity "Order" = ⟨ledger, ["Order"]⟩ := by
  simp only [RedirectScope.includeIfEntity, RedirectScope.include?,
    RedirectScope.explore_visited (show List.contains ["Order"] "Order" from rfl),
    RedirectScope.explore_nil]
  rfl

theorem include_audit :
    (⟨ledger, ["Order"]⟩ : RedirectScope).includeIfEntity "Audit" =
      ⟨ledger, ["Order", "Audit"]⟩ := by
  simp only [RedirectScope.includeIfEntity, RedirectScope.include?]
  rw [RedirectScope.explore_entity rfl rfl]
  exact congrArg (RedirectScope.mk ledger) (RedirectScope.explore_nil ..)

def notedPointer : FuncDecl :=
  notedBy ⟨"a", .pointer (.named "Audit")⟩ (.ident .nowhere "a")

theorem redirectScope_notedPointer :
    notedPointer.redirectScope ledger ⟨[]⟩ = .ok ⟨ledger, ["Order", "Audit"]⟩ := by
  rw [redirectScope, notedPointer, receiverScope_notedBy]
  have : ((⟨ledger, ["Order"]⟩ : RedirectScope).includeIfEntity "Order").includeIfEntity "Audit" =
      ⟨ledger, ["Order", "Audit"]⟩ := by rw [include_order, include_audit]
  exact congrArg Except.ok this

-- A parameter of pointer type brings its entity into the scope, so its fields are redirected.
theorem pointer_selector_redirected :
    ∃ v ∈ notedPointer.visits ledger ⟨[]⟩, ∃ b : TypedExpr,
      b.type = some (.known (.pointer (.named "Audit"))) ∧
      v.Replaced ⟨"F", ⟨ledger, ["Order", "Audit"]⟩, .standard⟩ b.expr auditNote ∧
      ∀ g, notedPointer.redirect ledger ⟨[]⟩ .standard = .ok g →
        v.StandsIn b.expr auditNote g.body.accesses := by
  let v : Visit TypeContext :=
    ⟨TypeContext.ofMethod ledger ⟨[]⟩ notedPointer, .read, .nowhere, .ident .nowhere "a", "note"⟩
  let b : TypedExpr := ⟨.ident .nowhere "a", some (.known (.pointer (.named "Audit")))⟩
  have touches : notedPointer.Touches ledger ⟨[]⟩ "Audit" :=
    ⟨"Audit", .inr ⟨.pointer (.named "Audit"), by decide, rfl⟩, .root rfl⟩
  have hv : v ∈ notedPointer.visits ledger ⟨[]⟩ := List.mem_singleton.2 rfl
  have hb : RedirectContext.value ⟨"F", ⟨ledger, ["Order", "Audit"]⟩, .standard⟩ v.oracle v.base =
      .ok b := rfl
  exact ⟨v, hv, b, rfl, ((selector_redirected_iff_touches redirectScope_notedPointer hv hb rfl rfl
    rfl).1 touches).1 rfl⟩

def notedElement : FuncDecl :=
  notedBy ⟨"xs", .slice (.pointer (.named "Audit"))⟩
    (.index .nowhere (.ident .nowhere "xs") (.literal .nowhere (.int 0)))

theorem redirectScope_notedElement :
    notedElement.redirectScope ledger ⟨[]⟩ = .ok ⟨ledger, ["Order"]⟩ := by
  rw [redirectScope, notedElement, receiverScope_notedBy]
  exact congrArg Except.ok include_order

-- The type of a slice names no entity, so the fields of its elements stay as they are, although the
-- types of the elements are known.
theorem element_selector_kept :
    let catalog := (Catalog.build ledgerSchema .standard {}).value
    catalog.field? "Audit" "note" = some auditNote ∧ auditNote.isProxied ∧
    notedElement.redirect catalog ⟨[]⟩ .standard = .ok notedElement ∧
    ∃ scope, notedElement.redirectScope catalog ⟨[]⟩ = .ok scope ∧
      ∃ v ∈ notedElement.visits catalog ⟨[]⟩, v.member = "note" ∧ ∃ b,
        RedirectContext.value ⟨"F", scope, .standard⟩ v.oracle v.base = .ok b ∧
        b.type = some (.known (.pointer (.named "Audit"))) ∧
        v.selector ∈ notedElement.body.accesses ∧
        ¬v.StandsIn b.expr auditNote notedElement.body.accesses := by
  rw [build_ledgerSchema]
  refine ⟨rfl, rfl, ?_, _, redirectScope_notedElement, ?_⟩
  · rw [redirect_eq, redirectScope_notedElement]
    rfl
  · refine ⟨_, List.mem_singleton.2 rfl, rfl, _, rfl, rfl, List.mem_singleton.2 rfl, ?_⟩
    intro h
    have := List.mem_singleton.1 h
    cases this

end FuncDecl

end FieldAccess
