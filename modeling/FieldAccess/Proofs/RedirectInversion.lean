import FieldAccess.Proofs.Success
import FieldAccess.Redirect.Method
import Mathlib.Data.List.Forall2

namespace FieldAccess

theorem ok_mapM {ε α β : Type} {f : α → Except ε β} {as : List α} {bs : List β} :
    as.mapM f = .ok bs ↔ List.Forall₂ (fun a b => f a = .ok b) as bs := by
  induction as generalizing bs with
  | nil => simp [ok_pure, eq_comm (b := bs)]
  | cons a as ih =>
    simp only [List.mapM_cons, ok_bind, ok_pure, ih, List.forall₂_cons_left_iff]
    grind

namespace RedirectContext

variable {σ : Type} [TypeOracle σ] {r : RedirectContext} {o : σ} {temps temps' : Temporaries}

-- The equations of the walk are made here once, not by each of the proofs that rewrite with them.
attribute [local simp] value stmt

theorem ok_values {es : List Expr} {ts : List TypedExpr} :
    r.values o es = .ok ts ↔ List.Forall₂ (fun e t => r.value o e = .ok t) es ts := by
  induction es generalizing ts with
  | nil => simp [values, ok_pure, eq_comm (b := ts)]
  | cons e es ih =>
    simp only [values, ok_bind, ok_pure, ih, List.forall₂_cons_left_iff]
    grind

section

variable {span : Span} {t : TypedExpr}

theorem ok_value_select {e : Expr} {member : String}
    (h : r.value o (.select span e member) = .ok t) :
    ∃ base, r.value o e = .ok base ∧
      ((∃ info : FieldInfo, t = info.read base.expr span) ∨ t.expr = .select span base.expr member) := by
  simp only [value, ok_bind] at h
  obtain ⟨base, he, resolution, _, h⟩ := h
  refine ⟨base, he, ?_⟩
  cases resolution with
  | proxied info => exact .inl ⟨info, (ok_pure.1 h).symm⟩
  | direct info => exact .inr (ok_pure.1 h ▸ rfl)
  | other => exact .inr (ok_pure.1 h ▸ rfl)

theorem ok_value_index {e i : Expr} (h : r.value o (.index span e i) = .ok t) :
    ∃ base index, r.value o e = .ok base ∧ r.value o i = .ok index ∧
      t.expr = .index span base.expr index.expr := by
  simp only [value, ok_bind, ok_pure] at h
  obtain ⟨base, he, index, hi, ht⟩ := h
  exact ⟨base, index, he, hi, ht ▸ rfl⟩

theorem ok_value_binary {op : BinaryOp} {left right : Expr}
    (h : r.value o (.binary span op left right) = .ok t) :
    ∃ l l', r.value o left = .ok l ∧ r.value o right = .ok l' ∧
      t = ⟨.binary span op l.expr l'.expr, TypeOracle.typeOf? o (.binary span op left right)⟩ := by
  simp only [value, ok_bind, ok_pure] at h
  obtain ⟨l, hl, l', hl', ht⟩ := h
  exact ⟨l, l', hl, hl', ht.symm⟩

theorem ok_value_unary {op : UnaryOp} {e : Expr} (h : r.value o (.unary span op e) = .ok t) :
    ∃ operand, r.value o e = .ok operand ∧ t.expr = .unary span op operand.expr := by
  simp only [value, ok_bind, ok_pure] at h
  obtain ⟨operand, he, ht⟩ := h
  exact ⟨operand, he, ht ▸ rfl⟩

theorem ok_value_paren {e : Expr} (h : r.value o (.paren span e) = .ok t) :
    ∃ inner, r.value o e = .ok inner ∧ t = ⟨.paren span inner.expr, inner.type⟩ := by
  simp only [value, ok_bind, ok_pure] at h
  obtain ⟨inner, he, ht⟩ := h
  exact ⟨inner, he, ht.symm⟩

theorem ok_value_composite {type : TypeExpr} {elements : List Element}
    (h : r.value o (.composite span type elements) = .ok t) :
    ∃ elements', r.elements o elements = .ok elements' ∧
      t.expr = .composite span type elements' := by
  simp only [value, ok_bind, ok_pure] at h
  obtain ⟨elements', he, ht⟩ := h
  exact ⟨elements', he, ht ▸ rfl⟩

theorem ok_elements_positional {e : Expr} {rest out : List Element}
    (h : r.elements o (.positional e :: rest) = .ok out) :
    ∃ v rest', r.value o e = .ok v ∧ r.elements o rest = .ok rest' ∧
      out = .positional v.expr :: rest' := by
  simp only [elements, ok_bind, ok_pure] at h
  obtain ⟨v, he, rest', hr, ho⟩ := h
  exact ⟨v, rest', he, hr, ho.symm⟩

theorem ok_elements_keyed {k e : Expr} {rest out : List Element}
    (h : r.elements o (.keyed k e :: rest) = .ok out) :
    ∃ key v rest', r.value o k = .ok key ∧ r.value o e = .ok v ∧ r.elements o rest = .ok rest' ∧
      out = .keyed key.expr v.expr :: rest' := by
  simp only [elements, ok_bind, ok_pure] at h
  obtain ⟨key, hk, v, he, rest', hr, ho⟩ := h
  exact ⟨key, v, rest', hk, he, hr, ho.symm⟩

end

-- What an assignment to resolved targets becomes: one without fields stays one statement, a field
-- alone is written at once, and all else is split.
inductive Planned (r : RedirectContext) (span : Span) (written : List Expr) (temps : Temporaries) :
    List Target → List TypedExpr → AssignPlan → Temporaries → Prop
  | kept {ts vs} : ts.any (·.isField) = false →
      Planned r span written temps ts vs
        (.keep (.assign span (ts.zipWith (fun t e => t.place e) written) .assign
          (vs.map (·.expr)))) temps
  | single {receiver info value} : r.checkWrite info value.type span = .ok () →
      Planned r span written temps [.field receiver info] [value]
        { mutators := [info.write r.settings receiver value span] } temps
  | split {ts vs p temps'} : ts.any (·.isField) = true →
      (ts.length = vs.length → r.checkWrites span ts vs = .ok ()) →
      planTargets r.settings span ts vs temps = (p, temps') →
      Planned r span written temps ts vs p temps'

theorem planned_of_fields {span : Span} {written : List Expr} {ts : List Target}
    {vs : List TypedExpr} {p : AssignPlan}
    (h : (match ts, vs with
      | [.field receiver info], [value] =>
        pure { mutators := [info.write r.settings receiver value span] }
      | targets, values => modifyGet (planTargets r.settings span targets values) :
        Redirecting AssignPlan) temps = .ok (p, temps'))
    (hf : ts.any (·.isField) = true)
    (checked : ts.length = vs.length → r.checkWrites span ts vs = .ok ()) :
    Planned r span written temps ts vs p temps' := by
  split at h
  case h_1 receiver info value =>
    obtain ⟨e₁, e₂⟩ := Redirecting.ok_pure.1 h
    subst e₁ e₂
    have checked := checked rfl
    simp only [checkWrites, ok_bind] at checked
    obtain ⟨_, checked, _⟩ := checked
    exact .single checked
  case h_2 => exact .split hf checked (Redirecting.ok_modifyGet.1 h)

theorem planned_of_ok {span : Span} {written values : List Expr} {p : AssignPlan}
    (h : r.planAssign o span written values temps = .ok (p, temps')) :
    ∃ ts vs, r.targets o written = .ok ts ∧ r.values o values = .ok vs ∧
      Planned r span written temps ts vs p temps' := by
  simp only [planAssign, Redirecting.ok_bind, Redirecting.ok_lift] at h
  obtain ⟨ts, _, ⟨ht, e₁⟩, vs, _, ⟨hv, e₂⟩, hp⟩ := h
  subst e₁ e₂
  refine ⟨ts, vs, ht, hv, ?_⟩
  split at hp
  case isFalse noField =>
    obtain ⟨e₁, e₂⟩ := Redirecting.ok_pure.1 hp
    subst e₁ e₂
    exact .kept (by simpa using noField)
  case isTrue hf =>
    split at hp
    case isFalse ne => exact planned_of_fields hp hf fun h => absurd h ne
    case isTrue =>
      simp only [Redirecting.ok_bind, Redirecting.ok_lift] at hp
      obtain ⟨_, _, ⟨checked, e⟩, hp⟩ := hp
      subst e
      exact planned_of_fields hp hf fun _ => checked

-- A field that a compound assignment writes is read and written through one variable for its
-- receiver. Any other target keeps the form of the statement.
inductive PlannedCompound (r : RedirectContext) (span : Span) (target : Expr) (op : BinaryOp)
    (form : Expr → Expr → Stmt) : Target → TypedExpr → AssignPlan → Prop
  | field {receiver info value name type} :
      PlannedCompound r span target op form (.field receiver info) value
        { bindings := ((⟨[name], [receiver]⟩ : Captured).statement? span).toList
          mutators := [info.write r.settings (.ident span name) ⟨.binary span op
            (info.read (.ident span name) span).expr (value.expr.asOperandOf op span), type⟩ span] }
  | kept {t value} : t.isField = false →
      PlannedCompound r span target op form t value (.keep (form (t.place target) value.expr))

theorem plannedCompound_of_ok {span : Span} {target value : Expr} {op : BinaryOp}
    {form : Expr → Expr → Stmt} {p : AssignPlan}
    (h : r.planCompound o span target op value form temps = .ok (p, temps')) :
    ∃ t v, r.target o target = .ok t ∧ r.value o value = .ok v ∧
      PlannedCompound r span target op form t v p := by
  simp only [planCompound, Redirecting.ok_bind, Redirecting.ok_lift] at h
  obtain ⟨t, _, ⟨ht, _⟩, v, _, ⟨hv, _⟩, h⟩ := h
  refine ⟨t, v, ht, hv, ?_⟩
  split at h
  case h_1 receiver info =>
    simp only [Redirecting.ok_bind, Redirecting.ok_lift, Redirecting.ok_modifyGet,
      Redirecting.ok_pure] at h
    obtain ⟨captured, _, hc, _, _, _, hp, _⟩ := h
    simp only [captureOperand, state_bind, state_pure, Prod.mk.injEq] at hc
    obtain ⟨hc, _⟩ := hc
    subst hc hp
    exact .field
  case h_2 noField =>
    obtain ⟨hp, _⟩ := Redirecting.ok_pure.1 h
    subst hp
    refine .kept ?_
    cases t <;> simp_all [Target.isField]

theorem ok_mapM_target {e : Option Expr} {t : Option Target} :
    (e.mapM (fun e => (liftM (r.target o e) : Redirecting Target))) temps = .ok (t, temps') ↔
      r.targets o e.toList = .ok t.toList ∧ temps = temps' := by
  rw [targets, ok_mapM]
  cases e with
  | none =>
    change (pure none : Redirecting (Option Target)) temps = .ok (t, temps') ↔ _
    cases t <;> simp [Redirecting.ok_pure]
  | some e =>
    change (some <$> (liftM (r.target o e) : Redirecting Target)) temps = .ok (t, temps') ↔ _
    simp only [map_eq_pure_bind, Redirecting.ok_bind, Redirecting.ok_lift, Redirecting.ok_pure]
    cases t <;> simp

theorem ok_ifElse {elseIf : Bool} {span : Span} {init : Option Stmt} {cond : Expr} {body : Block}
    {orElse : Option Stmt} {out : List Stmt}
    (h : r.stmt o elseIf (.ifElse span init cond body orElse) temps = .ok (out, temps')) :
    ∃ m c body' orElse' temps₁ temps₂,
      r.header o (if elseIf then .elseIfInit else .ifInit) init temps = .ok (m, temps₁) ∧
      r.value (TypeOracle.declareHeader o init) cond = .ok c ∧
      r.block (TypeOracle.declareHeader o init) body temps₁ = .ok (body', temps₂) ∧
      r.branch (TypeOracle.declareHeader o init) orElse temps₂ = .ok (orElse', temps') ∧
      out = m.before ++ [.ifElse span m.header c.expr body' orElse'] := by
  simp only [stmt, Redirecting.ok_bind, Redirecting.ok_lift, Redirecting.ok_pure] at h
  obtain ⟨m, temps₁, hm, c, _, ⟨hc, rfl⟩, body', temps₂, hb, orElse', _, ho, rfl, rfl⟩ := h
  exact ⟨m, c, body', orElse', _, temps₂, hm, hc, hb, ho, rfl⟩

theorem ok_forLoop {elseIf : Bool} {span : Span} {init : Option Stmt} {cond : Option Expr}
    {post : Option Stmt} {body : Block} {out : List Stmt}
    (h : r.stmt o elseIf (.forLoop span init cond post body) temps = .ok (out, temps')) :
    ∃ m c mp body' temps₁ temps₂,
      r.header o .forInit init temps = .ok (m, temps₁) ∧
      r.value? (TypeOracle.declareHeader o init) cond = .ok c ∧
      r.header (TypeOracle.declareHeader o init) .forPost post temps₁ = .ok (mp, temps₂) ∧
      (mp.after ≠ [] → Stmt.blockContinues body = false) ∧
      r.block (TypeOracle.declareHeader o init) body temps₂ = .ok (body', temps') ∧
      out = m.before ++ [.forLoop span m.header c mp.header
        (.mk body'.span (body'.statements ++ mp.after))] := by
  simp only [stmt, Redirecting.ok_bind, Redirecting.ok_lift] at h
  obtain ⟨m, temps₁, hm, c, _, ⟨hc, rfl⟩, mp, temps₂, hp, h⟩ := h
  split at h
  case isTrue =>
    simp only [Redirecting.ok_bind, Redirecting.ok_lift] at h
    obtain ⟨_, _, ⟨hf, _⟩, _⟩ := h
    simp [fail, ok_throw] at hf
  case isFalse reachesEnd =>
    simp only [Redirecting.ok_bind, Redirecting.ok_pure] at h
    obtain ⟨body', _, hb, rfl, rfl⟩ := h
    refine ⟨m, c, mp, body', _, temps₂, hm, hc, hp, fun ha => ?_, hb, rfl⟩
    simpa [ha] using reachesEnd

theorem ok_range {elseIf : Bool} {span : Span} {key value : Option Expr} {define : Bool}
    {iterable : Expr} {body : Block} {out : List Stmt} {inner : σ}
    (hi : inner = TypeOracle.declare o (.range span key value define iterable body))
    (h : r.stmt o elseIf (.range span key value define iterable body) temps = .ok (out, temps')) :
    ∃ t head body' temps₁,
      r.value o iterable = .ok t ∧
      (if define then head = ⟨key, value, true, []⟩ ∧ temps = temps₁
       else r.rangeHeader inner span key value t.type temps = .ok (head, temps₁)) ∧
      r.block inner body temps₁ = .ok (body', temps') ∧
      out = [.range span head.key head.value head.define t.expr
        (.mk body'.span (head.prelude ++ body'.statements))] := by
  subst hi
  simp only [stmt, Redirecting.ok_bind, Redirecting.ok_lift] at h
  obtain ⟨t, _, ⟨ht, rfl⟩, h⟩ := h
  split at h
  case isTrue hd =>
    simp only [Redirecting.ok_bind, Redirecting.ok_pure] at h
    obtain ⟨head, _, ⟨rfl, rfl⟩, body', _, hb, rfl, rfl⟩ := h
    exact ⟨t, _, body', _, ht, by simp [hd], hb, rfl⟩
  case isFalse hd =>
    simp only [Redirecting.ok_bind, Redirecting.ok_pure] at h
    obtain ⟨head, temps₁, hh, body', _, hb, rfl, rfl⟩ := h
    exact ⟨t, head, body', temps₁, ht, by simpa [hd] using hh, hb, rfl⟩

theorem ok_switch {elseIf : Bool} {span : Span} {init : Option Stmt} {tag : Option Expr}
    {cases : List Case} {out : List Stmt}
    (h : r.stmt o elseIf (.switch span init tag cases) temps = .ok (out, temps')) :
    ∃ m t cases' temps₁,
      r.header o .switchInit init temps = .ok (m, temps₁) ∧
      r.value? (TypeOracle.declareHeader o init) tag = .ok t ∧
      r.caseList (TypeOracle.declareHeader o init) cases temps₁ = .ok (cases', temps') ∧
      out = m.before ++ [.switch span m.header t cases'] := by
  simp only [stmt, Redirecting.ok_bind, Redirecting.ok_lift, Redirecting.ok_pure] at h
  obtain ⟨m, temps₁, hm, t, _, ⟨ht, rfl⟩, cases', _, hc, rfl, rfl⟩ := h
  exact ⟨m, t, cases', _, hm, ht, hc, rfl⟩

-- What holds of relocated plans and of whatever stays in its header holds of all headers.
theorem header_induction {P : Relocated → Prop} {place : Header} {s : Option Stmt} {m : Relocated}
    (moved : ∀ span p m, r.relocate place span p = .ok m → P m) (kept : ∀ header, P { header })
    (h : r.header o place s temps = .ok (m, temps')) : P m := by
  rcases s with _ | s
  · obtain ⟨hm, _⟩ := Redirecting.ok_pure.1 h
    exact hm ▸ kept none
  · cases s <;> simp only [header, Redirecting.ok_bind, Redirecting.ok_lift, Redirecting.ok_pure] at h
    case assign =>
      obtain ⟨_, _, _, hm, _⟩ := h
      exact moved _ _ _ hm
    case step =>
      obtain ⟨_, _, _, hm, _⟩ := h
      exact moved _ _ _ hm
    case expr =>
      obtain ⟨_, _, _, hm, _⟩ := h
      exact hm ▸ kept _
    all_goals exact h.1 ▸ kept _

-- Nothing stands in front of the branch of an `if`.
theorem header_elseIf {s : Option Stmt} {m : Relocated}
    (h : r.header o .elseIfInit s temps = .ok (m, temps')) : m.before = [] := by
  refine header_induction (P := fun m => m.before = []) (fun span p m h => ?_) (fun _ => rfl) h
  simp only [relocate] at h
  split at h
  · exact ok_pure.1 h ▸ rfl
  · simp [fail, ok_throw] at h

-- Initializers leave their header to the front, post statements to the end.
theorem header_after {place : Header} {s : Option Stmt} {m : Relocated} (hp : place ≠ .forPost)
    (h : r.header o place s temps = .ok (m, temps')) : m.after = [] := by
  refine header_induction (P := fun m => m.after = []) (fun span p m h => ?_) (fun _ => rfl) h
  simp only [relocate] at h
  split at h
  · exact ok_pure.1 h ▸ rfl
  · cases place
    case forPost => exact absurd rfl hp
    case elseIfInit => simp [fail, ok_throw] at h
    all_goals exact ok_pure.1 h ▸ rfl

theorem header_before {s : Option Stmt} {m : Relocated}
    (h : r.header o .forPost s temps = .ok (m, temps')) : m.before = [] := by
  refine header_induction (P := fun m => m.before = []) (fun span p m h => ?_) (fun _ => rfl) h
  simp only [relocate] at h
  split at h
  · exact ok_pure.1 h ▸ rfl
  · split at h <;> exact ok_pure.1 h ▸ rfl

-- A branch that is redirected at all is one statement and stays one.
theorem ok_branch {s : Stmt} {out : Option Stmt}
    (h : r.branch o (some s) temps = .ok (out, temps')) :
    (∃ s', out = some s' ∧ r.stmt o true s temps = .ok ([s'], temps')) ∨
      out = some s ∧ temps = temps' ∧
        match s with
        | .ifElse _ _ _ _ _ | .block _ => False
        | _ => True := by
  cases s
  case ifElse span init cond body orElse =>
    simp only [branch, Redirecting.ok_bind, Redirecting.ok_pure] at h
    obtain ⟨ss, _, hs, rfl, rfl⟩ := h
    obtain ⟨m, c, body', orElse', _, _, hm, _, _, _, rfl⟩ := ok_ifElse hs
    rw [header_elseIf (by simpa using hm)] at hs
    exact .inl ⟨_, by simp, hs⟩
  case block body =>
    simp only [branch, Redirecting.ok_bind, Redirecting.ok_pure] at h
    obtain ⟨ss, _, hs, rfl, rfl⟩ := h
    have hs' := hs
    simp only [stmt, Redirecting.ok_bind, Redirecting.ok_pure] at hs'
    obtain ⟨body', _, _, rfl, rfl⟩ := hs'
    exact .inl ⟨_, rfl, hs⟩
  all_goals
    obtain ⟨rfl, rfl⟩ := Redirecting.ok_pure.1 h
    exact .inr ⟨rfl, rfl, trivial⟩

end RedirectContext

end FieldAccess
