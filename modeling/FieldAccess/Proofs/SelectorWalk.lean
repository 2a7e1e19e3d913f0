import FieldAccess.Proofs.PlanAccesses
import FieldAccess.Proofs.RedirectInversion

namespace FieldAccess

namespace Visit

variable {σ : Type} [TypeOracle σ] {r : RedirectContext} {o : σ} {out out' : List Expr}

-- What a selector becomes stands among the expressions. A value that is left out calls nothing, so
-- no accessor is lost with it.
def RedirectedIn (r : RedirectContext) (out : List Expr) (v : Visit σ) : Prop :=
  match v.use with
  | .read => ∃ t, r.value v.oracle v.selector = .ok t ∧ (t.expr.isCallFree ∨ t.expr ∈ out)
  | .write => ∃ t, r.target v.oracle v.selector = .ok t ∧ t.WrittenIn out

theorem RedirectedIn.mono {v : Visit σ} (h : v.RedirectedIn r out) (sub : out ⊆ out') :
    v.RedirectedIn r out' := by
  simp only [RedirectedIn] at h ⊢
  split at h
  · obtain ⟨t, ht, hm⟩ := h
    exact ⟨t, ht, hm.imp_right (sub ·)⟩
  · obtain ⟨t, ht, hw⟩ := h
    exact ⟨t, ht, hw.mono sub⟩

theorem ReadIn.redirectedIn {v : Visit σ} (h : v.ReadIn r out) : v.RedirectedIn r out := by
  obtain ⟨hu, t, ht, hm⟩ := h
  simp only [RedirectedIn, hu]
  exact ⟨t, ht, .inr hm⟩

omit [TypeOracle σ] in
theorem readsOfList_eq (es : List Expr) : readsOfList o es = es.flatMap (reads o) := by
  induction es <;> simp_all [readsOfList]

end Visit

theorem exists_mem_zipWith {α β γ : Type} (f : α → β → γ) {as : List α} {bs : List β} {a : α}
    (h : as.length = bs.length) (ha : a ∈ as) : ∃ b ∈ bs, f a b ∈ as.zipWith f bs := by
  induction as generalizing bs with
  | nil => cases ha
  | cons a' as ih =>
    cases bs with
    | nil => cases h
    | cons b bs =>
      rcases List.mem_cons.1 ha with rfl | ha
      · exact ⟨b, by simp, by simp⟩
      · obtain ⟨b', hb, hm⟩ := ih (Nat.succ.inj h) ha
        exact ⟨b', by simp [hb], by simp [hm]⟩

namespace RedirectContext

open Visit

variable {σ : Type} [TypeOracle σ] {r : RedirectContext} {o : σ} {temps temps' : Temporaries}

theorem values_redirected {es : List Expr} {ts : List TypedExpr} {out : List Expr}
    (h : r.values o es = .ok ts)
    (kept : ∀ t ∈ ts, t.expr.isCallFree ∨ t.expr.accesses ⊆ out) :
    ∀ v ∈ readsOfList o es, v.RedirectedIn r out := by
  intro v hv
  rw [readsOfList_eq] at hv
  obtain ⟨e, he, hv⟩ := List.mem_flatMap.1 hv
  obtain ⟨t, hm, ht⟩ := exists_of_forall₂ (ok_values.1 h) he
  obtain ⟨hu, t', ht', hm'⟩ := value_reads e ht v hv
  simp only [RedirectedIn, hu]
  refine ⟨t', ht', ?_⟩
  rcases kept t hm with hf | sub
  · exact .inl (Expr.isCallFree_of_mem_accesses t.expr hf hm')
  · exact .inr (sub hm')

theorem targets_redirected {es : List Expr} {ts : List Target} {out : List Expr}
    (h : r.targets o es = .ok ts) (kept : ∀ t ∈ ts, t.accesses ⊆ out ∧ t.WrittenIn out) :
    ∀ v ∈ es.flatMap (writes o), v.RedirectedIn r out := by
  intro v hv
  obtain ⟨e, he, hv⟩ := List.mem_flatMap.1 hv
  obtain ⟨t, hm, ht⟩ := exists_of_forall₂ (ok_mapM.1 h) he
  obtain ⟨sub, written⟩ := kept t hm
  rcases target_writes e ht v hv with hr | ⟨hu, hs⟩
  · exact (hr.mono sub).redirectedIn
  · simp only [RedirectedIn, hu]
    exact ⟨t, hs, written⟩

theorem write_writtenIn (settings : Settings) (info : FieldInfo) (receiver : Expr)
    (value : TypedExpr) (span : Span) :
    (Target.field receiver info).WrittenIn (info.write settings receiver value span).accesses :=
  ⟨span, receiver, info.argument settings value span, .inl rfl, by simp [write_accesses]⟩

theorem planAssign_redirected {span : Span} {written values : List Expr} {p : AssignPlan}
    (h : r.planAssign o span written values temps = .ok (p, temps')) :
    ∀ v ∈ ofAssign o written values, v.RedirectedIn r (accessesOfStmts p.statements) := by
  obtain ⟨ts, vs, ht, hv, planned⟩ := planned_of_ok h
  suffices (∀ t ∈ ts, t.accesses ⊆ accessesOfStmts p.statements ∧
        t.WrittenIn (accessesOfStmts p.statements)) ∧
      (∀ v ∈ vs, v.expr.isCallFree ∨ v.expr.accesses ⊆ accessesOfStmts p.statements) by
    intro v hm
    rcases List.mem_append.1 hm with hm | hm
    · exact targets_redirected ht this.1 v hm
    · exact values_redirected hv this.2 v hm
  cases planned with
  | kept noField =>
    have : accessesOfStmts (AssignPlan.keep (.assign span (ts.zipWith (fun t e => t.place e) written)
          .assign (vs.map (·.expr)))).statements =
        (ts.zipWith (fun t e => t.place e) written).flatMap Expr.accesses ++
          (vs.map (·.expr)).flatMap Expr.accesses := by
      simp [AssignPlan.keep, AssignPlan.statements, accessesOfStmts, Stmt.accesses]
    rw [this]
    refine ⟨fun t hm => ?_, fun v hm => .inr fun a ha => ?_⟩
    · obtain ⟨e, _, hz⟩ := exists_mem_zipWith (fun t e => t.place e)
        (ok_mapM.1 ht).length_eq.symm hm
      cases t with
      | blank => simp [Target.accesses, Target.WrittenIn]
      | plain place =>
        refine ⟨fun a ha => List.mem_append_left _ ?_, trivial⟩
        exact Expr.accesses_subset_of_mem hz (place.placeAccesses_subset ha)
      | field receiver info =>
        have := List.any_eq_false.1 noField _ hm
        simp [Target.isField] at this
    · exact List.mem_append_right _
        (Expr.accesses_subset_of_mem (List.mem_map_of_mem (f := (·.expr)) hm) ha)
  | single _ =>
    rename_i receiver info value _
    have arg := @argument_accesses r.settings span info value
    have : accessesOfStmts ({ mutators := [info.write r.settings receiver value span] } :
        AssignPlan).statements = (info.write r.settings receiver value span).accesses := by
      simp [AssignPlan.statements, accessesOfStmts]
    rw [this]
    refine ⟨fun t hm => ?_, fun v hm => .inr ?_⟩
    · obtain rfl := List.mem_singleton.1 hm
      refine ⟨fun a ha => ?_, write_writtenIn ..⟩
      simp only [write_accesses, List.mem_cons, List.mem_append]
      exact .inr (.inr (.inl ha))
    · obtain rfl := List.mem_singleton.1 hm
      intro a ha
      simp only [write_accesses, List.mem_cons, List.mem_append]
      exact .inr (.inr (.inr (arg ha)))
  | split _ _ hp =>
    have := @planTargets_keeps r.settings span temps ts vs
    rwa [hp] at this

theorem asOperandOf_accesses (e : Expr) (op : BinaryOp) (span : Span) :
    (e.asOperandOf op span).accesses = e.accesses := by
  simp only [Expr.asOperandOf]
  split <;> rfl

theorem planCompound_redirected {span : Span} {target value : Expr} {op : BinaryOp}
    {form : Expr → Expr → Stmt} {p : AssignPlan}
    (h : r.planCompound o span target op value form temps = .ok (p, temps'))
    (keepsTarget : ∀ t v, t.accesses ⊆ (form t v).accesses) :
    (∀ v ∈ writes o target, v.RedirectedIn r (accessesOfStmts p.statements)) ∧
    ((∀ t v, v.accesses ⊆ (form t v).accesses) →
      ∀ v ∈ reads o value, v.RedirectedIn r (accessesOfStmts p.statements)) := by
  obtain ⟨t, v, ht, hv, planned⟩ := plannedCompound_of_ok h
  suffices t.accesses ⊆ accessesOfStmts p.statements ∧
      t.WrittenIn (accessesOfStmts p.statements) ∧
      ((∀ t v, v.accesses ⊆ (form t v).accesses) →
        v.expr.accesses ⊆ accessesOfStmts p.statements) by
    obtain ⟨sub, written, kept⟩ := this
    refine ⟨fun w hw => ?_, fun keepsValue w hw => ?_⟩
    · rcases target_writes target ht w hw with hr | ⟨hu, hs⟩
      · exact (hr.mono sub).redirectedIn
      · simp only [RedirectedIn, hu]
        exact ⟨t, hs, written⟩
    · exact ((value_reads value hv w hw).mono (kept keepsValue)).redirectedIn
  cases planned with
  | kept noField =>
    have : accessesOfStmts (AssignPlan.keep (form (t.place target) v.expr)).statements =
        (form (t.place target) v.expr).accesses := by
      simp [AssignPlan.keep, AssignPlan.statements, accessesOfStmts]
    rw [this]
    cases t with
    | blank => exact ⟨by simp [Target.accesses], trivial, fun keepsValue => keepsValue _ _⟩
    | plain place =>
      refine ⟨fun a ha => keepsTarget _ _ (place.placeAccesses_subset ha), trivial, ?_⟩
      exact fun keepsValue => keepsValue _ _
    | field receiver info => cases noField
  | @field receiver info value name type =>
    have binding := Captured.accesses_statement? ⟨[name], [receiver]⟩ span
    generalize hm : info.write r.settings (.ident span name) _ span = mutator
    have inMutator : mutator.accesses ⊆ accessesOfStmts (AssignPlan.statements
        { bindings := ((⟨[name], [receiver]⟩ : Captured).statement? span).toList
          mutators := [mutator] }) :=
      accesses_subset_of_mem (by simp [AssignPlan.statements])
    refine ⟨fun a ha => ?_, ?_, fun _ a ha => inMutator ?_⟩
    · have := binding (List.mem_flatMap.2 ⟨receiver, by simp, ha⟩)
      simp only [AssignPlan.statements, accessesOfStmts_eq, List.flatMap_append, List.mem_append]
        at this ⊢
      exact .inl (.inl this)
    · obtain ⟨at_, place, arg, hp, hw⟩ := hm ▸ write_writtenIn r.settings info (.ident span name) _ span
      refine ⟨at_, place, arg, .inr ?_, inMutator hw⟩
      rcases hp with hp | hp
      · exact ⟨span, name, hp⟩
      · exact hp
    · rw [← hm, write_accesses]
      refine List.mem_cons_of_mem _ (List.mem_cons_of_mem _ (List.mem_append_right _ ?_))
      refine argument_accesses info _ ?_
      simp only [Expr.accesses, asOperandOf_accesses]
      exact List.mem_append_right _ ha

theorem plan_redirected {span : Span} {targets values : List Expr} {op : AssignOp}
    {p : AssignPlan} (h : r.plan o span targets op values temps = .ok (p, temps')) :
    ∀ v ∈ ofSimple o (.assign span targets op values),
      v.RedirectedIn r (accessesOfStmts p.statements) := by
  cases op with
  | assign => exact planAssign_redirected h
  | define =>
    simp only [plan, Redirecting.ok_bind, Redirecting.ok_lift, Redirecting.ok_pure] at h
    obtain ⟨vs, _, ⟨hv, _⟩, hp, _⟩ := h
    subst hp
    refine values_redirected hv fun v hm => .inr fun a ha => ?_
    simpa [AssignPlan.keep, AssignPlan.statements, accessesOfStmts, Stmt.accesses]
      using .inr ⟨v, hm, ha⟩
  | compound op =>
    simp only [plan] at h
    simp only [ofSimple]
    split at h
    case isTrue hr =>
      simp only [hr, if_true]
      exact planAssign_redirected h
    case isFalse hr =>
      simp only [hr]
      split at h
      case h_1 target value =>
        obtain ⟨keptTarget, keptValue⟩ := planCompound_redirected h
          fun _ _ => by simp [Stmt.accesses]
        intro v hm
        rcases List.mem_append.1 hm with hm | hm
        · exact keptTarget v hm
        · exact keptValue (fun _ _ => by simp [Stmt.accesses]) v hm
      case h_2 targets values other =>
        intro v hm
        simp at hm

theorem planStep_redirected {span : Span} {target : Expr} {increment : Bool} {p : AssignPlan}
    (h : r.planStep o span target increment temps = .ok (p, temps')) :
    ∀ v ∈ ofSimple o (.step span target increment),
      v.RedirectedIn r (accessesOfStmts p.statements) := by
  simp only [planStep] at h
  simp only [ofSimple]
  split at h
  case isTrue hf =>
    simp only [hf, if_true]
    exact planAssign_redirected h
  case isFalse hf =>
    simp only [hf]
    exact (planCompound_redirected h fun _ _ => List.Subset.refl _).1

-- A plan that calls no mutator is one statement.
theorem Planned.bindings_eq_nil {span : Span} {written : List Expr} {ts : List Target}
    {vs : List TypedExpr} {p : AssignPlan} (h : Planned r span written temps ts vs p temps')
    (hm : p.mutators = []) : p.bindings = [] := by
  cases h with
  | kept _ => rfl
  | single _ => cases hm
  | split hf _ hp =>
    have := @planTargets_writesFields r.settings span temps _ vs hf
    rw [hp] at this
    exact absurd hm this

theorem planAssign_bindings {span : Span} {written values : List Expr} {p : AssignPlan}
    (h : r.planAssign o span written values temps = .ok (p, temps')) (hm : p.mutators = []) :
    p.bindings = [] :=
  have ⟨_, _, _, _, planned⟩ := planned_of_ok h
  planned.bindings_eq_nil hm

theorem planCompound_bindings {span : Span} {target value : Expr} {op : BinaryOp}
    {form : Expr → Expr → Stmt} {p : AssignPlan}
    (h : r.planCompound o span target op value form temps = .ok (p, temps'))
    (hm : p.mutators = []) : p.bindings = [] := by
  obtain ⟨_, _, _, _, planned⟩ := plannedCompound_of_ok h
  cases planned with
  | field => cases hm
  | kept _ => rfl

theorem plan_bindings {span : Span} {targets values : List Expr} {op : AssignOp} {p : AssignPlan}
    (h : r.plan o span targets op values temps = .ok (p, temps')) (hm : p.mutators = []) :
    p.bindings = [] := by
  cases op with
  | assign => exact planAssign_bindings h hm
  | define =>
    simp only [plan, Redirecting.ok_bind, Redirecting.ok_pure] at h
    obtain ⟨_, _, _, hp, _⟩ := h
    exact hp ▸ rfl
  | compound op =>
    simp only [plan] at h
    split at h
    case isTrue => exact planAssign_bindings h hm
    case isFalse =>
      split at h
      case h_1 => exact planCompound_bindings h hm
      case h_2 => exact (Redirecting.ok_pure.1 h).1 ▸ rfl

theorem planStep_bindings {span : Span} {target : Expr} {increment : Bool} {p : AssignPlan}
    (h : r.planStep o span target increment temps = .ok (p, temps')) (hm : p.mutators = []) :
    p.bindings = [] := by
  simp only [planStep] at h
  split at h
  case isTrue => exact planAssign_bindings h hm
  case isFalse => exact planCompound_bindings h hm

-- What leaves a header still stands before the construct or at the end of its body.
theorem relocate_accesses {place : Header} {span : Span} {p : AssignPlan} {m : Relocated}
    (h : r.relocate place span p = .ok m) (hb : p.mutators = [] → p.bindings = []) :
    accessesOfStmts p.statements ⊆
      accessesOfStmts m.before ++ accessesOfOption m.header ++ accessesOfStmts m.after := by
  have kept : accessesOfStmts p.plain.toList ⊆ accessesOfOption p.plain := by
    cases p.plain <;> simp [accessesOfStmts, accessesOfOption]
  have keptOr : accessesOfStmts p.plain.toList ⊆ accessesOfOption (some (p.plain.getD (.empty span)))
      := by
    cases p.plain <;> simp [accessesOfStmts, accessesOfOption]
  have split : accessesOfStmts p.statements = accessesOfStmts p.bindings ++
      accessesOfStmts p.plain.toList ++ accessesOfStmts p.mutators := by
    simp [AssignPlan.statements, accessesOfStmts_eq]
  rw [split]
  simp only [relocate] at h
  split at h
  case isTrue noField =>
    have noMutator : p.mutators = [] := by simpa [AssignPlan.writesFields] using noField
    obtain rfl := ok_pure.1 h
    rw [noMutator, hb noMutator]
    simpa [accessesOfStmts] using kept
  case isFalse =>
    split at h
    case h_1 => simp [fail, ok_throw] at h
    case h_2 =>
      split at h
      case isTrue =>
        obtain rfl := ok_pure.1 h
        rw [← split]
        simp
      case isFalse =>
        obtain rfl := ok_pure.1 h
        simp only [accessesOfStmts_eq, List.flatMap_append] at keptOr ⊢
        grind
    all_goals
      obtain rfl := ok_pure.1 h
      simp only [accessesOfStmts_eq, List.flatMap_append] at keptOr ⊢
      grind

theorem header_redirected {place : Header} {s : Option Stmt} {m : Relocated}
    (h : r.header o place s temps = .ok (m, temps')) :
    ∀ v ∈ s.toList.flatMap (ofSimple o), v.RedirectedIn r
      (accessesOfStmts m.before ++ accessesOfOption m.header ++ accessesOfStmts m.after) := by
  intro v hv
  cases s with
  | none => simp at hv
  | some s =>
    simp only [Option.toList, List.flatMap_cons, List.flatMap_nil, List.append_nil] at hv
    cases s <;> try simp [ofSimple] at hv
    case expr e =>
      simp only [header, Redirecting.ok_bind, Redirecting.ok_lift, Redirecting.ok_pure] at h
      obtain ⟨t, _, ⟨ht, _⟩, hm, _⟩ := h
      subst hm
      exact (value_reads e ht v hv).redirectedIn.mono (by simp [accessesOfOption, Stmt.accesses])
    case assign span targets op values =>
      simp only [header, Redirecting.ok_bind, Redirecting.ok_lift] at h
      obtain ⟨p, _, hp, hm, _⟩ := h
      exact (plan_redirected hp v hv).mono (relocate_accesses hm (plan_bindings hp))
    case step span target increment =>
      simp only [header, Redirecting.ok_bind, Redirecting.ok_lift] at h
      obtain ⟨p, _, hp, hm, _⟩ := h
      exact (planStep_redirected hp v hv).mono (relocate_accesses hm (planStep_bindings hp))

theorem rangeTarget_keeps {span : Span} {type : Option TypeExpr} {t : Option Target}
    {e : Option Expr} {prelude : List Stmt}
    (h : r.rangeTarget span type t temps = .ok ((e, prelude), temps')) :
    ∀ t' ∈ t, t'.accesses ⊆ accessesOfStmts prelude ∧ t'.WrittenIn (accessesOfStmts prelude) := by
  intro t' ht
  obtain rfl := Option.mem_def.1 ht
  cases t' with
  | blank => simp [Target.accesses, Target.WrittenIn]
  | plain place =>
    simp only [rangeTarget, Redirecting.ok_bind, Redirecting.ok_modifyGet, Redirecting.ok_pure,
      Prod.mk.injEq] at h
    obtain ⟨name, _, _, ⟨_, hp⟩, _⟩ := h
    subst hp
    have := place.placeAccesses_subset
    simpa [Target.accesses, Target.WrittenIn, accessesOfStmts, Stmt.accesses, Expr.accesses]
  | field receiver info =>
    simp only [rangeTarget, Redirecting.ok_bind, Redirecting.ok_modifyGet, Redirecting.ok_pure,
      Prod.mk.injEq] at h
    obtain ⟨name, _, _, _, _, _, ⟨_, hp⟩, _⟩ := h
    subst hp
    have : accessesOfStmts [info.write r.settings receiver
        ⟨.ident span name, type.map .known⟩ span] = (info.write r.settings receiver
        ⟨.ident span name, type.map .known⟩ span).accesses := by
      simp [accessesOfStmts]
    rw [this]
    refine ⟨fun a ha => ?_, write_writtenIn ..⟩
    simp only [write_accesses, List.mem_cons, List.mem_append]
    exact .inr (.inr (.inl ha))

-- A target that is no field stays in the header.
theorem place_keeps {e : Option Expr} {t : Option Target}
    (h : r.targets o e.toList = .ok t.toList) (noField : t.any (·.isField) = false) :
    ∀ t' ∈ t, t'.accesses ⊆
        (e.bind fun e => t.map (·.place e)).toList.flatMap Expr.accesses ∧
      t'.WrittenIn ((e.bind fun e => t.map (·.place e)).toList.flatMap Expr.accesses) := by
  intro t' ht
  obtain rfl := Option.mem_def.1 ht
  have lengths := (ok_mapM.1 h).length_eq
  cases e with
  | none => simp at lengths
  | some e =>
    cases t' with
    | blank => simp [Target.accesses, Target.WrittenIn]
    | plain place =>
      have := place.placeAccesses_subset
      simpa [Target.accesses, Target.WrittenIn, Target.place]
    | field receiver info => simp [Target.isField] at noField

theorem rangeHeader_redirected {span : Span} {key value : Option Expr}
    {type : Option StaticType} {head : RangeHeader}
    (h : r.rangeHeader o span key value type temps = .ok (head, temps')) :
    ∀ v ∈ key.toList.flatMap (writes o) ++ value.toList.flatMap (writes o), v.RedirectedIn r
      (head.key.toList.flatMap Expr.accesses ++ head.value.toList.flatMap Expr.accesses ++
        accessesOfStmts head.prelude) := by
  simp only [rangeHeader, Redirecting.ok_bind, ok_mapM_target] at h
  obtain ⟨kt, _, ⟨hk, _⟩, vt, _, ⟨hv, _⟩, h⟩ := h
  suffices ∀ t, t ∈ kt ∨ t ∈ vt →
      t.accesses ⊆ head.key.toList.flatMap Expr.accesses ++
        head.value.toList.flatMap Expr.accesses ++ accessesOfStmts head.prelude ∧
      t.WrittenIn (head.key.toList.flatMap Expr.accesses ++
        head.value.toList.flatMap Expr.accesses ++ accessesOfStmts head.prelude) by
    intro v hm
    rcases List.mem_append.1 hm with hm | hm
    · exact targets_redirected hk (fun t ht => this t (.inl (by simpa using ht))) v hm
    · exact targets_redirected hv (fun t ht => this t (.inr (by simpa using ht))) v hm
  intro t ht
  split at h
  case isTrue =>
    simp only [Redirecting.ok_bind, Redirecting.ok_pure] at h
    obtain ⟨⟨_, first⟩, _, hk', ⟨_, second⟩, _, hv', hh, _⟩ := h
    subst hh
    have sub {out : List Expr} (hs : out ⊆ accessesOfStmts (first ++ second))
        (h : t.accesses ⊆ out ∧ t.WrittenIn out) :
        t.accesses ⊆ accessesOfStmts (first ++ second) ∧
          t.WrittenIn (accessesOfStmts (first ++ second)) :=
      ⟨fun a ha => hs (h.1 ha), h.2.mono hs⟩
    have := ht.elim
      (fun ht => sub (by simp [accessesOfStmts_eq]) (rangeTarget_keeps hk' t ht))
      (fun ht => sub (by simp [accessesOfStmts_eq]) (rangeTarget_keeps hv' t ht))
    exact ⟨fun a ha => List.mem_append_right _ (this.1 ha),
      this.2.mono (List.subset_append_right _ _)⟩
  case isFalse noField =>
    obtain ⟨hh, _⟩ := Redirecting.ok_pure.1 h
    subst hh
    simp only [Bool.or_eq_true, not_or, Bool.not_eq_true] at noField
    have sub {out : List Expr} (h : t.accesses ⊆ out ∧ t.WrittenIn out) {out' : List Expr}
        (hs : out ⊆ out') : t.accesses ⊆ out' ∧ t.WrittenIn out' :=
      ⟨fun a ha => hs (h.1 ha), h.2.mono hs⟩
    rcases ht with ht | ht
    · exact sub (place_keeps hk noField.1 t ht) (by simp)
    · exact sub (place_keeps hv noField.2 t ht) (by simp)

theorem value?_redirected {e e' : Option Expr} (h : r.value? o e = .ok e') :
    ∀ v ∈ e.toList.flatMap (reads o), v.RedirectedIn r (e'.toList.flatMap Expr.accesses) := by
  intro v hv
  cases e with
  | none => simp at hv
  | some e =>
    simp only [value?, ok_bind, ok_pure] at h
    obtain ⟨t, ht, he⟩ := h
    subst he
    exact (value_reads e ht v (by simpa using hv)).redirectedIn.mono (by simp)

theorem exprs_redirected {es : List Expr} {ts : List TypedExpr} (h : r.values o es = .ok ts) :
    ∀ v ∈ readsOfList o es, v.RedirectedIn r ((ts.map (·.expr)).flatMap Expr.accesses) :=
  values_redirected h fun _ hm =>
    .inr (Expr.accesses_subset_of_mem (List.mem_map_of_mem (f := (·.expr)) hm))

mutual

theorem stmt_redirected {elseIf : Bool} {out : List Stmt} {temps temps' : Temporaries} {o : σ} :
    (s : Stmt) → r.stmt o elseIf s temps = .ok (out, temps') →
      ∀ v ∈ ofStmt o s, v.RedirectedIn r (accessesOfStmts out)
  | .empty _, _, v, hv | .breakLoop _, _, v, hv | .continueLoop _, _, v, hv => by
    simp [ofStmt] at hv
  | .expr e, h, v, hv => by
    simp only [stmt, Redirecting.ok_bind, Redirecting.ok_lift, Redirecting.ok_pure] at h
    obtain ⟨t, _, ⟨ht, _⟩, hs, _⟩ := h
    subst hs
    exact (value_reads e ht v hv).redirectedIn.mono (by simp [accessesOfStmts, Stmt.accesses])
  | .assign span targets op values, h, v, hv => by
    simp only [stmt, Redirecting.ok_bind, Redirecting.ok_pure] at h
    obtain ⟨p, _, hp, hs, _⟩ := h
    subst hs
    exact plan_redirected hp v hv
  | .step span target increment, h, v, hv => by
    simp only [stmt, Redirecting.ok_bind, Redirecting.ok_pure] at h
    obtain ⟨p, _, hp, hs, _⟩ := h
    subst hs
    exact planStep_redirected hp v hv
  | .var span names type values, h, v, hv => by
    simp only [stmt, Redirecting.ok_bind, Redirecting.ok_lift, Redirecting.ok_pure] at h
    obtain ⟨ts, _, ⟨ht, _⟩, hs, _⟩ := h
    subst hs
    exact (exprs_redirected ht v hv).mono (by simp [accessesOfStmts, Stmt.accesses])
  | .ret span values, h, v, hv => by
    simp only [stmt, Redirecting.ok_bind, Redirecting.ok_lift, Redirecting.ok_pure] at h
    obtain ⟨ts, _, ⟨ht, _⟩, hs, _⟩ := h
    subst hs
    exact (exprs_redirected ht v hv).mono (by simp [accessesOfStmts, Stmt.accesses])
  | .block body, h, v, hv => by
    simp only [stmt, Redirecting.ok_bind, Redirecting.ok_pure] at h
    obtain ⟨body', _, hb, hs, _⟩ := h
    subst hs
    exact (block_redirected body hb v hv).mono (by simp [accessesOfStmts, Stmt.accesses])
  | .ifElse span init cond body orElse, h, v, hv => by
    obtain ⟨m, c, body', orElse', _, _, hm, hc, hb, ho, rfl⟩ := ok_ifElse h
    simp only [ofStmt, List.mem_append] at hv
    simp only [accessesOfStmts_eq, List.flatMap_append, List.flatMap_cons, List.flatMap_nil,
      Stmt.accesses]
    rcases hv with ((hv | hv) | hv) | hv
    · refine (header_redirected hm v hv).mono ?_
      simp only [header_after (by split <;> simp) hm, accessesOfStmts_eq]
      grind
    · exact (value_reads cond hc v hv).redirectedIn.mono (by grind)
    · exact (block_redirected body hb v hv).mono (by grind)
    · exact (branch_redirected orElse ho v hv).mono (by grind)
  | .forLoop span init cond post body, h, v, hv => by
    obtain ⟨m, c, mp, body', _, _, hm, hc, hp, _, hb, rfl⟩ := ok_forLoop h
    have inBody : accessesOfStmts body'.statements = body'.accesses := by
      cases body'
      rfl
    simp only [ofStmt, List.mem_append] at hv
    simp only [accessesOfStmts_eq, List.flatMap_append, List.flatMap_cons, List.flatMap_nil,
      Stmt.accesses, Block.accesses] at inBody ⊢
    rcases hv with ((hv | hv) | hv) | hv
    · refine (header_redirected hm v hv).mono ?_
      simp only [header_after (by simp) hm, accessesOfStmts_eq]
      grind
    · exact (value?_redirected hc v hv).mono (by grind)
    · refine (header_redirected hp v hv).mono ?_
      simp only [header_before hp, accessesOfStmts_eq]
      grind
    · exact (block_redirected body hb v hv).mono (by grind)
  | .range span key value define iterable body, h, v, hv => by
    obtain ⟨t, head, body', _, ht, hh, hb, rfl⟩ := ok_range rfl h
    have inBody : accessesOfStmts body'.statements = body'.accesses := by
      cases body'
      rfl
    simp only [ofStmt, List.mem_append] at hv
    simp only [accessesOfStmts_eq, List.flatMap_append, List.flatMap_cons, List.flatMap_nil,
      Stmt.accesses, Block.accesses] at inBody ⊢
    rcases hv with (hv | hv) | hv
    · exact (value_reads iterable ht v hv).redirectedIn.mono (by grind)
    · split at hh
      case isTrue hd => simp [hd] at hv
      case isFalse hd =>
        obtain rfl : define = false := by simpa using hd
        refine (rangeHeader_redirected hh v (List.mem_append.2 (by simpa using hv))).mono ?_
        simp only [accessesOfStmts_eq]
        grind
    · exact (block_redirected body hb v hv).mono (by grind)
  | .switch span init tag cases, h, v, hv => by
    obtain ⟨m, t, cases', _, hm, ht, hc, rfl⟩ := ok_switch h
    simp only [ofStmt, List.mem_append] at hv
    simp only [accessesOfStmts_eq, List.flatMap_append, List.flatMap_cons, List.flatMap_nil,
      Stmt.accesses]
    rcases hv with (hv | hv) | hv
    · refine (header_redirected hm v hv).mono ?_
      simp only [header_after (by simp) hm, accessesOfStmts_eq]
      grind
    · exact (value?_redirected ht v hv).mono (by grind)
    · exact (cases_redirected cases hc v hv).mono (by grind)
termination_by structural s => s

theorem branch_redirected {out : Option Stmt} {temps temps' : Temporaries} {o : σ} :
    (s : Option Stmt) → r.branch o s temps = .ok (out, temps') →
      ∀ v ∈ ofBranch o s, v.RedirectedIn r (accessesOfOption out)
  | none, _, v, hv => by simp [ofBranch] at hv
  | some s, h, v, hv => by
    rcases ok_branch h with ⟨s', rfl, hs⟩ | ⟨_, _, other⟩
    · have hv : v ∈ ofStmt o s := by
        cases s <;> simp_all [ofBranch]
      exact (stmt_redirected s hs v hv).mono (by simp [accessesOfStmts, accessesOfOption])
    · cases s <;> simp_all [ofBranch]
termination_by structural s => s

theorem block_redirected {out : Block} {temps temps' : Temporaries} {o : σ} :
    (b : Block) → r.block o b temps = .ok (out, temps') →
      ∀ v ∈ ofBlock o b, v.RedirectedIn r out.accesses
  | .mk span statements, h, v, hv => by
    simp only [block, Redirecting.ok_bind, Redirecting.ok_pure] at h
    obtain ⟨ss, _, hs, ho, _⟩ := h
    subst ho
    exact stmts_redirected statements hs v hv
termination_by structural s => s

theorem stmts_redirected {out : List Stmt} {temps temps' : Temporaries} {o : σ} :
    (ss : List Stmt) → r.stmts o ss temps = .ok (out, temps') →
      ∀ v ∈ ofStmts o ss, v.RedirectedIn r (accessesOfStmts out)
  | [], _, v, hv => by simp [ofStmts] at hv
  | s :: rest, h, v, hv => by
    simp only [stmts, Redirecting.ok_bind, Redirecting.ok_pure] at h
    obtain ⟨first, _, hf, others, _, hr, ho, _⟩ := h
    subst ho
    rcases List.mem_append.1 hv with hv | hv
    · exact (stmt_redirected s hf v hv).mono (by simp [accessesOfStmts_eq])
    · exact (stmts_redirected rest hr v hv).mono (by simp [accessesOfStmts_eq])
termination_by structural s => s

theorem cases_redirected {out : List Case} {temps temps' : Temporaries} {o : σ} :
    (cs : List Case) → r.caseList o cs temps = .ok (out, temps') →
      ∀ v ∈ ofCases o cs, v.RedirectedIn r (accessesOfCases out)
  | [], _, v, hv => by simp [ofCases] at hv
  | .mk span values body :: rest, h, v, hv => by
    simp only [caseList, Redirecting.ok_bind, Redirecting.ok_lift, Redirecting.ok_pure] at h
    obtain ⟨ts, _, ⟨ht, _⟩, body', _, hb, others, _, hr, ho, _⟩ := h
    subst ho
    simp only [ofCases, List.mem_append] at hv
    rcases hv with (hv | hv) | hv
    · exact (exprs_redirected ht v hv).mono (by simp [accessesOfCases])
    · exact (stmts_redirected body hb v hv).mono (by simp [accessesOfCases])
    · exact (cases_redirected rest hr v hv).mono (by simp [accessesOfCases])
termination_by structural s => s

end

end RedirectContext

end FieldAccess
