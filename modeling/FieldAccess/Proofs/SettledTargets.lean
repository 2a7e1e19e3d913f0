import FieldAccess.Proofs.SettledValues

namespace FieldAccess

-- A name, a member, or either in parentheses.
def Expr.isNamed : Expr → Bool
  | .ident _ _ | .select _ _ _ | .paren _ _ => true
  | _ => false

def Target.names : Target → List String
  | .blank => []
  | .plain e | .field e _ => e.names

namespace RedirectContext

open TypeContext

variable {r r' : RedirectContext} {c c' : TypeContext} {span : Span} {member : String}
  {names : List String} {e : Expr}

theorem target_of_other (h : e.isNamed = false) :
    r.target c e = do return .plain (← r.value c e).expr := by
  cases e <;> first | rfl | cases h

theorem isNamed_value {t : TypedExpr} (other : e.isNamed = false) (h : r.value c e = .ok t) :
    t.expr.isNamed = false := by
  cases e
  case ident | select | paren => cases other
  case literal | typeOperand =>
    cases ok_pure.1 h
    rfl
  case call =>
    simp only [value, ok_bind, ok_pure] at h
    obtain ⟨_, _, _, _, rfl⟩ := h
    rfl
  case index =>
    obtain ⟨_, _, _, _, same⟩ := ok_value_index h
    rw [same]
    rfl
  case binary =>
    obtain ⟨_, _, _, _, rfl⟩ := ok_value_binary h
    rfl
  case unary =>
    obtain ⟨_, _, same⟩ := ok_value_unary h
    rw [same]
    rfl
  case composite =>
    obtain ⟨_, _, same⟩ := ok_value_composite h
    rw [same]
    rfl

-- Redirection leaves the expression as it is where it is written to, and takes it for no field.
def PlaceSettled (r : RedirectContext) (c : TypeContext) (e : Expr) : Prop :=
  r.target c e = .ok (.plain e)

namespace PlaceSettled

theorem transfer (agrees : Agrees names c c') (sub : e.names ⊆ names) (h : r.PlaceSettled c e) :
    r.PlaceSettled c' e := by
  rw [PlaceSettled, target_eq agrees e sub]
  exact h

theorem of_settled (h : r.Settled c e) (other : e.isNamed = false) : r.PlaceSettled c e := by
  rw [PlaceSettled, target_of_other other, h]
  rfl

theorem select (hr : r.scope.catalog = c.catalog) (h : r.Settled c e)
    (passes : r.Passes (c.typeOf? e) member) : r.PlaceSettled c (.select span e member) := by
  have resolved := resolve_fieldOf? span member hr (c.typeOf? e)
  rw [PlaceSettled, target, h]
  simp only [ok_bind, Except.ok.injEq]
  cases found : r.fieldOf? (c.typeOf? e) member with
  | none =>
    simp only [found] at resolved
    exact ⟨_, rfl, _, resolved, rfl⟩
  | some info =>
    simp only [found, passes info found] at resolved
    exact ⟨_, rfl, _, resolved, rfl⟩

end PlaceSettled

-- A receiver whose accessor and mutator are no fields.
structure ReceiverSettled (r : RedirectContext) (c : TypeContext) (receiver : Expr) (info : FieldInfo) :
    Prop where
  settled : r.Settled c receiver
  reads : r.Passes (c.typeOf? receiver) info.accessor
  writes : r.Passes (c.typeOf? receiver) info.mutator

-- No part of the target is a field that is still selected by its name.
def TargetSettled (r : RedirectContext) (c : TypeContext) : Target → Prop
  | .blank => True
  | .plain place => r.PlaceSettled c place
  | .field receiver info => r.ReceiverSettled c receiver info

theorem TargetSettled.transfer {t : Target} (agrees : Agrees names c c') (sub : t.names ⊆ names)
    (h : r.TargetSettled c t) : r.TargetSettled c' t := by
  cases t with
  | blank => trivial
  | plain place => exact PlaceSettled.transfer agrees sub h
  | field receiver info =>
    have type := agrees.typeOf?_eq receiver sub
    exact ⟨h.settled.transfer agrees sub, type ▸ h.reads, type ▸ h.writes⟩

-- What a target is resolved to is settled in a narrower scope.
structure TargetBecomes (r : RedirectContext) (c : TypeContext) (e : Expr) (t : Target) : Prop where
  settled : r.TargetSettled c t
  names : t.names ⊆ e.names
  blank : t = .blank → r.target c e = .ok .blank
  callFree : ∀ place, t = .plain place → place.isCallFree → e.isCallFree

theorem receiver_becomes (within : r'.Within r c.catalog) (sure : c.Unmistakable) {t : TypedExpr}
    (ht : r'.Becomes c e t) {info : FieldInfo} (found : r.fieldOf? t.type member = some info)
    (proxied : info.isProxied) : r'.ReceiverSettled c t.expr info := by
  obtain ⟨known, entity, type, named, _, field⟩ := fieldOf?_eq_some found
  rw [within.outer] at field
  have type : c.typeOf? t.expr = some (.known known) := ht.typed.symm.trans type
  have passes {member : String} (none : c.catalog.field? entity member = none) :
      r'.Passes (c.typeOf? t.expr) member := by
    intro other hf
    obtain ⟨_, _, h, named', _, hf⟩ := fieldOf?_eq_some hf
    rw [type] at h
    cases h
    rw [named] at named'
    cases named'
    rw [within.inner, none] at hf
    cases hf
  exact ⟨ht.settled, passes (sure.accessor field proxied), passes (sure.mutator field proxied)⟩

theorem target_becomes (within : r'.Within r c.catalog) (sure : c.Unmistakable) :
    (e : Expr) → (t : Target) → r.target c e = .ok t → r'.TargetBecomes c e t
  | .ident span name, t, h => by
    rw [target] at h
    split at h
    case isTrue blank =>
      cases ok_pure.1 h
      refine ⟨trivial, List.nil_subset _, fun _ => ?_, by simp⟩
      rw [target, if_pos blank]
      rfl
    case isFalse named =>
      cases ok_pure.1 h
      refine ⟨?_, List.Subset.refl _, by simp, fun _ _ _ => rfl⟩
      rw [TargetSettled, PlaceSettled, target, if_neg named]
      rfl
  | .paren span inner, t, h => by
    obtain ⟨settled, names, blank, callFree⟩ := target_becomes within sure inner t h
    exact ⟨settled, names, blank, callFree⟩
  | .select span base member, t, h => by
    simp only [target, ok_bind] at h
    obtain ⟨b, hb, res, resolved, ht⟩ := h
    have hb := value_becomes within sure base b hb
    have plain (kept : ∀ info, res ≠ .proxied info) :
        r'.TargetBecomes c (.select span base member) (.plain (.select span b.expr member)) := by
      refine ⟨?_, hb.names, by simp, ?_⟩
      · exact .select within.inner hb.settled (hb.typed ▸ within.passes resolved kept)
      · rintro _ ⟨⟩
        exact hb.callFree
    cases res with
    | proxied info =>
      cases ok_pure.1 ht
      have found := fieldOf?_of_resolve within.outer resolved
      exact ⟨receiver_becomes within sure hb found.1 found.2, hb.names, by simp, by simp⟩
    | direct info => exact ok_pure.1 ht ▸ plain (by simp)
    | other => exact ok_pure.1 ht ▸ plain (by simp)
  | .literal _ _, t, h | .typeOperand _ _, t, h | .call _ _ _ _, t, h | .index _ _ _, t, h
  | .binary _ _ _ _, t, h | .unary _ _ _, t, h | .composite _ _ _, t, h => by
    rw [target_of_other rfl] at h
    obtain ⟨v, hv, ht⟩ := ok_bind.1 h
    cases ok_pure.1 ht
    have hv' := value_becomes within sure _ v hv
    refine ⟨.of_settled hv'.settled (isNamed_value rfl hv), hv'.names, by simp, ?_⟩
    rintro _ ⟨⟩
    exact hv'.callFree

-- What is written to stays as it is.
def Stays (r : RedirectContext) (c : TypeContext) (e : Expr) : Prop :=
  ∃ t, r.target c e = .ok t ∧ t.isField = false ∧ t.place e = e

theorem PlaceSettled.stays (h : r.PlaceSettled c e) : r.Stays c e :=
  ⟨_, h, rfl, rfl⟩

theorem Stays.transfer (agrees : Agrees names c c') (sub : e.names ⊆ names) (h : r.Stays c e) :
    r.Stays c' e := by
  obtain ⟨t, ht, plain, same⟩ := h
  exact ⟨t, by rw [target_eq agrees e sub, ht], plain, same⟩

theorem PlaceSettled.settled (hr : r.scope.catalog = c.catalog) (other : e.isNamed = false)
    (h : r.PlaceSettled c e) : r.Settled c e := by
  rw [PlaceSettled, target_of_other other] at h
  obtain ⟨t, ht, same⟩ := ok_bind.1 h
  exact .of_ok hr ht (Target.plain.inj (ok_pure.1 same))

theorem PlaceSettled.of_select (hr : r.scope.catalog = c.catalog)
    (h : r.PlaceSettled c (.select span e member)) :
    r.Settled c e ∧ r.Passes (c.typeOf? e) member := by
  simp only [PlaceSettled, target, ok_bind] at h
  obtain ⟨b, hb, res, resolved, ht⟩ := h
  have type := value_type hr e b hb
  have kept (kept : ∀ info, res ≠ .proxied info)
      (same : Target.plain (.select span b.expr member) = .plain (.select span e member)) :
      r.Settled c e ∧ r.Passes (c.typeOf? e) member := by
    injection same with same
    injection same with _ same
    exact ⟨.of_ok hr hb same, type ▸ Within.passes ⟨hr, hr, fun _ => id⟩ resolved kept⟩
  cases res with
  | proxied info => cases ok_pure.1 ht
  | direct info => exact kept (by simp) (ok_pure.1 ht)
  | other => exact kept (by simp) (ok_pure.1 ht)

-- Parentheses around a target are dropped.
theorem target_ne_paren {inner : Expr} :
    (e : Expr) → r.target c e ≠ .ok (.plain (.paren span inner))
  | .ident at_ name, h => by
    rw [target] at h
    split at h <;> cases ok_pure.1 h
  | .paren _ inner, h => target_ne_paren inner h
  | .select _ _ _, h => by
    simp only [target, ok_bind] at h
    obtain ⟨_, _, res, _, h⟩ := h
    cases res <;> cases ok_pure.1 h
  | .literal _ _, h | .typeOperand _ _, h | .call _ _ _ _, h | .index _ _ _, h
  | .binary _ _ _ _, h | .unary _ _ _, h | .composite _ _ _, h => by
    rw [target_of_other rfl] at h
    obtain ⟨t, ht, h⟩ := ok_bind.1 h
    have other := isNamed_value rfl ht
    rw [Target.plain.inj (ok_pure.1 h)] at other
    cases other

theorem stays_blank : r.Stays c (.ident span "_") :=
  ⟨.blank, rfl, rfl, rfl⟩

theorem targets_stay {es : List Expr} (h : ∀ e ∈ es, r.Stays c e) :
    ∃ ts, r.targets c es = .ok ts ∧ ts.any (·.isField) = false ∧
      ts.zipWith (fun t e => t.place e) es = es := by
  induction es with
  | nil => exact ⟨[], rfl, rfl, rfl⟩
  | cons e es ih =>
    obtain ⟨t, ht, plain, same⟩ := h e (by simp)
    obtain ⟨ts, hts, plains, sames⟩ := ih fun e he => h e (by simp [he])
    refine ⟨t :: ts, ?_, by simp [plain, plains], by simp [same, sames]⟩
    rw [targets, ok_mapM] at hts ⊢
    exact .cons ht hts

-- A target that is no field stands where it stood.
theorem TargetBecomes.stays {t : Target} (h : r.TargetBecomes c e t) (plain : t.isField = false) :
    r.Stays c (t.place e) ∧ (t.place e).names ⊆ e.names ∧
      ((t.place e).isCallFree → e.isCallFree) := by
  cases t with
  | blank => exact ⟨⟨.blank, h.blank rfl, rfl, rfl⟩, List.Subset.refl _, id⟩
  | plain place => exact ⟨PlaceSettled.stays h.settled, h.names, h.callFree place rfl⟩
  | field => cases plain

-- Redirection leaves the statement as it is, also in a header.
structure StmtSettled (r : RedirectContext) (c : TypeContext) (s : Stmt) : Prop where
  expanded : s.expand = s
  stmt : ∀ elseIf temps, r.stmt c elseIf s temps = .ok ([s], temps)
  header : ∀ place temps, r.header c place (some s) temps = .ok ({ header := some s }, temps)

-- Statements that redirection leaves as they are, one after the other.
def Settles (r : RedirectContext) (c : TypeContext) : List Stmt → Prop
  | [] => True
  | s :: rest => r.StmtSettled c s ∧ r.Settles (c.declare s) rest

theorem settles_append {ss ss' : List Stmt} :
    r.Settles c (ss ++ ss') ↔ r.Settles c ss ∧ r.Settles (c.declareAll ss) ss' := by
  induction ss generalizing c with
  | nil => exact (and_iff_right trivial).symm
  | cons s ss ih => exact (and_congr_right fun _ => ih).trans and_assoc.symm

theorem Settles.stmts {ss : List Stmt} (h : r.Settles c ss) (temps : Temporaries) :
    r.stmts c ss temps = .ok (ss, temps) := by
  induction ss generalizing c with
  | nil => rfl
  | cons s ss ih =>
    simp only [RedirectContext.stmts, Redirecting.ok_bind, Redirecting.ok_pure]
    exact ⟨_, _, h.1.stmt _ _, ss, _, ih h.2, rfl, rfl⟩

theorem Settles.expandList {ss : List Stmt} (h : r.Settles c ss) : Stmt.expandList ss = ss := by
  induction ss generalizing c with
  | nil => rfl
  | cons s ss ih => rw [Stmt.expandList, h.1.expanded, ih h.2]

namespace StmtSettled

variable {targets values : List Expr} {op : AssignOp}

theorem of_plan (expanded : (Stmt.assign span targets op values).expand = .assign span targets op values)
    (h : ∀ temps, r.plan c span targets op values temps =
      .ok (.keep (.assign span targets op values), temps)) :
    r.StmtSettled c (.assign span targets op values) where
  expanded := expanded
  stmt _ temps := by
    simp only [RedirectContext.stmt, Redirecting.ok_bind, Redirecting.ok_pure]
    exact ⟨_, _, h temps, rfl, rfl⟩
  header _ temps := by
    simp only [RedirectContext.header, Redirecting.ok_bind, Redirecting.ok_lift]
    exact ⟨_, _, h temps, rfl, rfl⟩

theorem expr (h : r.Settled c e) : r.StmtSettled c (.expr e) where
  expanded := rfl
  stmt _ temps := by
    simp only [RedirectContext.stmt, Redirecting.ok_bind, Redirecting.ok_lift, Redirecting.ok_pure]
    exact ⟨_, _, ⟨h, rfl⟩, rfl, rfl⟩
  header _ temps := by
    simp only [RedirectContext.header, Redirecting.ok_bind, Redirecting.ok_lift, Redirecting.ok_pure]
    exact ⟨_, _, ⟨h, rfl⟩, rfl, rfl⟩

theorem define (h : ∀ e ∈ values, r.Settled c e) :
    r.StmtSettled c (.assign span targets .define values) := by
  refine of_plan rfl fun temps => ?_
  obtain ⟨ts, found, same⟩ := Settled.values h
  simp only [plan, Redirecting.ok_bind, Redirecting.ok_lift, Redirecting.ok_pure]
  exact ⟨ts, _, ⟨found, rfl⟩, by rw [same], rfl⟩

theorem assign (ht : ∀ e ∈ targets, r.Stays c e) (hv : ∀ e ∈ values, r.Settled c e) :
    r.StmtSettled c (.assign span targets .assign values) := by
  obtain ⟨ts, found, noField, places⟩ := targets_stay ht
  obtain ⟨vs, found', same⟩ := Settled.values hv
  refine of_plan rfl fun temps => ?_
  simp only [plan, planAssign, Redirecting.ok_bind, Redirecting.ok_lift]
  refine ⟨ts, _, ⟨found, rfl⟩, vs, _, ⟨found', rfl⟩, ?_⟩
  simp only [noField, Bool.false_eq_true, if_false, places, same]
  rfl

end StmtSettled

theorem callNamed_settled {name : String} (h : r.Settled c e) :
    r.Settled c (.callNamed name [e] span) :=
  .call (.ident name) (by simpa using h)

theorem literalElements_settled (hr : r.scope.catalog = c.catalog) {elements : List Expr}
    (h : r.Settled c e) (literal : FieldInfo.literalElements? e = some elements) :
    ∀ e ∈ elements, r.Settled c e := by
  unfold FieldInfo.literalElements? at literal
  split at literal
  case h_1 =>
    split at literal
    case isTrue unkeyed => exact Option.some.inj literal ▸ .of_elements hr h.of_composite unkeyed
    case isFalse => cases literal
  case h_2 => cases literal

-- To convert a value to the field's enumeration selects nothing.
theorem argument_settled (hr : r.scope.catalog = c.catalog) (settings : Settings) (info : FieldInfo)
    {v : TypedExpr} (h : r.Settled c v.expr) : r.Settled c (info.argument settings v span) := by
  unfold FieldInfo.argument
  split
  case h_1 => exact h
  case h_2 enum _ =>
    split
    case isTrue =>
      split
      case isTrue => exact h
      case isFalse =>
        split
        case h_1 elements literal =>
          have all := literalElements_settled hr h literal
          have converted : ∀ e ∈ elements.map fun e => .callNamed enum [e] span, r.Settled c e := by
            simpa using fun e he => callNamed_settled (all e he)
          exact .composite (by simpa [Function.comp_def] using Settled.elements_positional converted)
        case h_2 => exact callNamed_settled h
    case isFalse =>
      split
      case isTrue => exact h
      case isFalse => exact callNamed_settled h

theorem write_settled (hr : r.scope.catalog = c.catalog) (settings : Settings) {receiver : Expr}
    {info : FieldInfo} {v : TypedExpr} (hreceiver : r.ReceiverSettled c receiver info)
    (h : r.Settled c v.expr) : r.StmtSettled c (info.write settings receiver v span) := by
  refine .expr (.call (.select hr hreceiver.settled hreceiver.writes) fun a ha => ?_)
  obtain rfl := List.mem_singleton.1 ha
  exact argument_settled hr settings info h

end RedirectContext

end FieldAccess
