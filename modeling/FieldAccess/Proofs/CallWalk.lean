import FieldAccess.Proofs.PlanCalls

namespace FieldAccess

namespace AssignPlan

variable {p : AssignPlan} {emitted : List Stmt}

theorem Laid.stands (laid : p.Laid emitted) : StandIn p.statements emitted := by
  refine .of_subset fun s hs => ?_
  cases laid with
  | block => exact hs
  | emptied => exact List.mem_append_left _ hs
  | header =>
    simp only [statements, List.mem_append, Option.mem_toList, List.mem_singleton] at hs ⊢
    rcases hs with (bindings | plain) | mutators
    · exact .inl (.inl bindings)
    · exact .inr (by rw [plain]; rfl)
    · exact .inl (.inr mutators)

-- However its parts are put together, they call the same.
theorem Laid.calls (laid : p.Laid emitted) :
    callsAmong (accessesOfStmts emitted) = callsAmong (accessesOfStmts p.statements) := by
  cases laid with
  | block => rfl
  | emptied => simp [accessesOfStmts_eq, Stmt.accesses]
  | header span =>
    have kept : (p.plain.getD (.empty span)).accesses = p.plain.toList.flatMap Stmt.accesses := by
      cases p.plain with
      | none => rfl
      | some s => exact (List.append_nil _).symm
    simp only [accessesOfStmts_eq, statements, List.flatMap_append, List.flatMap_singleton, kept,
      callsAmong_append]
    abel

end AssignPlan

namespace RedirectContext

open Visit

variable {σ : Type} [TypeOracle σ] {r : RedirectContext} {o : σ} {temps temps' : Temporaries}
  {span : Span} {p : AssignPlan} {code : List Stmt}

theorem exprs_weave {es : List Expr} {ts : List TypedExpr} (h : r.values o es = .ok ts) :
    Weaves r (readsOfList o es) [] (callsAmong (es.flatMap Expr.accesses))
      (callsAmong ((ts.map (·.expr)).flatMap Expr.accesses)) := by
  simpa [Expr.accessesOfList_eq] using values_weaves es h

theorem accesses_of_target_blank : (e : Expr) → r.target o e = .ok .blank → e.accesses = []
  | .ident _ _, _ => rfl
  | .paren _ inner, h => accesses_of_target_blank inner (by simpa [target] using h)
  | .select _ _ _, h => by
    simp only [target, ok_bind] at h
    obtain ⟨_, _, resolution, _, h⟩ := h
    cases resolution <;> cases ok_pure.1 h
  | .literal _ _, h | .typeOperand _ _, h | .call _ _ _ _, h | .index _ _ _, h
  | .binary _ _ _ _, h | .unary _ _ _, h | .composite _ _ _, h => by
    simp only [target, ok_bind, ok_pure] at h
    obtain ⟨_, _, same⟩ := h
    cases same

-- A target that is no field stays where it is.
theorem place_calls {e : Expr} {t : Target} (h : r.target o e = .ok t) (plain : t.isField = false) :
    callsAmong (t.place e).accesses = t.calls := by
  cases t with
  | field => cases plain
  | plain place => rfl
  | blank => simp [Target.place, Target.calls, accesses_of_target_blank e h]

theorem places_calls {es : List Expr} {ts : List Target} (h : r.targets o es = .ok ts)
    (plain : ts.any (·.isField) = false) :
    callsAmong ((ts.zipWith (fun t e => t.place e) es).flatMap Expr.accesses) =
      (ts.map Target.calls).sum := by
  rw [targets, ok_mapM] at h
  induction h with
  | nil => rfl
  | cons head _ ih =>
    simp only [List.any_cons, Bool.or_eq_false_iff] at plain
    simp [place_calls head plain.1, ih plain.2]

theorem places_calls? {e : Option Expr} {t : Option Target}
    (h : r.targets o e.toList = .ok t.toList) (plain : t.any (·.isField) = false) :
    callsAmong ((e.bind fun e => t.map (·.place e)).toList.flatMap Expr.accesses) =
      (t.toList.map Target.calls).sum := by
  have same : (e.bind fun e => t.map (·.place e)).toList =
      t.toList.zipWith (fun t e => t.place e) e.toList := by cases e <;> cases t <;> rfl
  rw [same]
  exact places_calls h (by cases t <;> simp_all)

-- What is inserted for fields among targets is inserted for the selectors that denote them.
theorem insertedFor_of_among {es : List Expr} {ts : List Target} {vs : List (Visit σ)}
    {code' : List Stmt} {c : Expr} (h : r.targets o es = .ok ts) (sub : es.flatMap (writes o) ⊆ vs)
    (stands : StandIn code code') (hc : InsertedAmong r.settings code ts c) :
    InsertedFor r vs code' c := by
  obtain ⟨receiver, info, mem, written⟩ := hc
  obtain ⟨v, hv, base, use, denotes, rfl⟩ := (targets_weave h).2 receiver info mem
  refine ⟨v, sub hv, base, info, denotes, ?_⟩
  rw [BecomesCall, use]
  exact written.mono stands

theorem planAssign_weaves {written values : List Expr}
    (h : r.planAssign o span written values temps = .ok (p, temps')) :
    Weaves r (ofAssign o written values) p.statements
      (callsAmong (written.flatMap Expr.accesses) + callsAmong (values.flatMap Expr.accesses))
      (callsAmong (accessesOfStmts p.statements)) := by
  obtain ⟨ts, vs, ht, hv, planned⟩ := planned_of_ok h
  have parts := (targets_weave ht).1.append (exprs_weave hv)
  suffices Inserts (InsertedAmong r.settings p.statements ts)
      ((ts.map Target.calls).sum + callsAmong ((vs.map (·.expr)).flatMap Expr.accesses))
      (callsAmong (accessesOfStmts p.statements)) from
    parts.anywhere.then_inserts (this.mono fun c hc =>
      insertedFor_of_among ht (List.subset_append_left ..) (.refl _) hc)
  cases planned with
  | kept plain =>
    exact .of_eq _ (by simp [AssignPlan.keep, AssignPlan.statements, accessesOfStmts, Stmt.accesses,
      places_calls ht plain])
  | @single receiver info value _ =>
    have held := heldIn_self [info.write r.settings receiver value span] span receiver
    have write := (write_inserts r.settings info value held).mono
      (Q := InsertedAmong r.settings [info.write r.settings receiver value span]
        [.field receiver info])
      fun c hc => ⟨receiver, info, List.mem_singleton_self _, hc⟩
    simpa [AssignPlan.statements, accessesOfStmts, Target.calls] using write
  | split _ _ made =>
    have planned := planTargets_inserts r.settings span temps ts vs
    rw [made] at planned
    rw [accessesOfStmts_eq]
    refine planned.mono fun c hc => ?_
    obtain ⟨receiver, info, mem, written⟩ := hc
    refine ⟨receiver, info, mem, written.mono (.of_subset ?_)⟩
    rw [AssignPlan.statements, List.append_assoc]
    exact List.subset_append_left ..

theorem callsAmong_asOperandOf (e : Expr) (op : BinaryOp) :
    callsAmong (e.asOperandOf op span).accesses = callsAmong e.accesses :=
  congrArg callsAmong (asOperandOf_accesses e op span)

-- The variable that a compound assignment reads and writes a field through holds its receiver.
theorem held_of_planCompound {target value receiver : Expr} {op : BinaryOp}
    {form : Expr → Expr → Stmt} {info : FieldInfo} {name : String} {source : TypedExpr}
    (h : r.planCompound o span target op value form temps = .ok (p, temps'))
    (aims : r.target o target = .ok (.field receiver info))
    (mutates : p.mutators = [info.write r.settings (.ident span name) source span]) :
    HeldIn p.bindings span receiver (.ident span name) := by
  obtain ⟨t, v, ht, -, formed⟩ := formed_planCompound h
  obtain rfl := Except.ok.inj (aims.symm.trans ht)
  obtain ⟨_, formed⟩ := formed receiver info rfl
  have mutators := formed.mutators
  rw [mutates] at mutators
  obtain ⟨place, _, held, same⟩ := (List.forall₂_cons.1 mutators).1
  obtain rfl : Expr.ident span name = place := by
    simp only [FieldInfo.write, Stmt.expr.injEq, Expr.call.injEq, Expr.select.injEq] at same
    exact same.2.1.2.1
  exact heldIn_of_bound held

theorem planCompound_weaves {target value : Expr} {op : BinaryOp} {form : Expr → Expr → Stmt}
    (h : r.planCompound o span target op value form temps = .ok (p, temps'))
    (once : ∀ t v, r.value o value = .ok v →
      callsAmong (form t v.expr).accesses = callsAmong t.accesses + callsAmong v.expr.accesses) :
    Weaves r (writes o target ++ reads o value) p.statements
      (callsAmong target.accesses + callsAmong value.accesses)
      (callsAmong (accessesOfStmts p.statements)) := by
  obtain ⟨t, v, ht, hv, planned⟩ := plannedCompound_of_ok h
  obtain ⟨targetWeaves, denotes⟩ := target_weaves target ht
  refine (targetWeaves.anywhere.append (value_weaves value hv).anywhere).then_inserts ?_
  cases planned with
  | kept plain =>
    refine .of_eq _ ?_
    simpa [AssignPlan.keep, AssignPlan.statements, accessesOfStmts, place_calls ht plain]
      using (once (t.place target) v hv).symm
  | @field receiver info _ name type =>
    obtain ⟨w, hw, base, use, denoted, rfl⟩ := denotes receiver info rfl
    let c : Captured := ⟨[name], [base.expr]⟩
    let read := (info.read (.ident span name) span).expr
    let combined : TypedExpr := ⟨.binary span op read (v.expr.asOperandOf op span), type⟩
    let mutator := info.write r.settings (.ident span name) combined span
    have held : HeldIn ((c.statement? span).toList ++ [mutator]) span base.expr (.ident span name) :=
      (held_of_planCompound h ht rfl).mono (.of_subset (List.subset_append_left ..))
    have inserted {call : Expr}
        (hc : info.WrittenBy r.settings ((c.statement? span).toList ++ [mutator]) base.expr call) :
        InsertedFor r (writes o target ++ reads o value)
          ((c.statement? span).toList ++ [mutator]) call := by
      refine ⟨w, List.mem_append_left _ hw, base, info, denoted, ?_⟩
      rw [BecomesCall, use]
      exact hc
    have bound : callsAmong ((c.statement? span).toList.flatMap Stmt.accesses) =
        callsAmong base.expr.accesses := (statement?_calls span c).trans (by simp [c])
    have operand : callsAmong combined.expr.accesses = read ::ₘ callsAmong v.expr.accesses := by
      simp [combined, read, FieldInfo.read, Expr.accesses, Expr.accessesOfList,
        callsAmong_asOperandOf]
    have reads := (Inserts.refl _ (callsAmong v.expr.accesses)).cons (inserted (.accessor held))
    have write := (write_inserts r.settings info combined held).mono fun _ => inserted
    rw [operand, show callsAmong (Expr.ident span name).accesses = 0 from rfl, zero_add] at write
    have all := (Inserts.of_eq _ bound.symm).add (reads.trans write)
    simpa [AssignPlan.statements, accessesOfStmts_eq, Target.calls] using all

theorem steppedValue_calls {target : Expr} {increment : Bool} (free : target.isCallFree) :
    callsAmong (Stmt.steppedValue span target increment).accesses = 0 := by
  simp [Stmt.steppedValue, Expr.accesses, callsAmong_of_isCallFree free]

theorem plan_weaves {targets values : List Expr} {op : AssignOp}
    (plain : (Stmt.assign span targets op values).hasShorthand = false)
    (h : r.plan o span targets op values temps = .ok (p, temps')) :
    Weaves r (ofSimple o (.assign span targets op values)) p.statements
      (callsAmong (Stmt.assign span targets op values).accesses)
      (callsAmong (accessesOfStmts p.statements)) := by
  rw [Stmt.accesses, callsAmong_append]
  cases op with
  | assign => exact planAssign_weaves h
  | define =>
    simp only [plan, Redirecting.ok_bind, Redirecting.ok_lift, Redirecting.ok_pure] at h
    obtain ⟨vs, _, ⟨hv, _⟩, rfl, _⟩ := h
    have parts := (Weaves.refl r (readsOfList o values) []
      (callsAmong (targets.flatMap Expr.accesses))).add (exprs_weave hv)
    simpa [AssignPlan.keep, AssignPlan.statements, accessesOfStmts, Stmt.accesses, ofSimple]
      using parts.anywhere
  | compound op =>
    have once : ¬Stmt.areRepeatable targets := Bool.eq_false_iff.1 plain
    simp only [plan] at h
    simp only [ofSimple]
    rw [if_neg once] at h ⊢
    split at h
    case h_1 target value =>
      simpa using planCompound_weaves h fun _ _ _ => by simp [Stmt.accesses]
    case h_2 targets values other =>
      obtain ⟨rfl, _⟩ := Redirecting.ok_pure.1 h
      exact .of_eq (by simp [AssignPlan.keep, AssignPlan.statements, accessesOfStmts, Stmt.accesses])

theorem planStep_weaves {target : Expr} {increment : Bool}
    (plain : (Stmt.step span target increment).hasShorthand = false)
    (h : r.planStep o span target increment temps = .ok (p, temps')) :
    Weaves r (ofSimple o (.step span target increment)) p.statements (callsAmong target.accesses)
      (callsAmong (accessesOfStmts p.statements)) := by
  have calls : ¬target.isCallFree := Bool.eq_false_iff.1 plain
  rw [planStep, if_neg calls] at h
  rw [ofSimple, if_neg calls]
  have once : ∀ t v, r.value o (.literal span (.int 1)) = .ok v →
      callsAmong (Stmt.step span t increment).accesses =
        callsAmong t.accesses + callsAmong v.expr.accesses := by
    intro t v hv
    obtain rfl := ok_pure.1 hv
    exact (add_zero _).symm
  simpa [reads, Expr.accesses] using planCompound_weaves h once

-- A plan that writes no field has no bindings.
theorem planAssign_writes {written values : List Expr}
    (h : r.planAssign o span written values temps = .ok (p, temps')) :
    p.mutators ≠ [] ∨ p.bindings = [] := by
  obtain ⟨ts, vs, -, -, planned⟩ := planned_of_ok h
  cases planned with
  | kept => exact .inr rfl
  | single => exact .inl (by simp)
  | split field _ made =>
    have writes := @planTargets_writesFields r.settings span temps ts vs field
    rw [made] at writes
    exact .inl writes

theorem planCompound_writes {target value : Expr} {op : BinaryOp} {form : Expr → Expr → Stmt}
    (h : r.planCompound o span target op value form temps = .ok (p, temps')) :
    p.mutators ≠ [] ∨ p.bindings = [] := by
  obtain ⟨t, v, -, -, planned⟩ := plannedCompound_of_ok h
  cases planned with
  | kept => exact .inr rfl
  | field => exact .inl (by simp)

theorem plan_writes {targets values : List Expr} {op : AssignOp}
    (h : r.plan o span targets op values temps = .ok (p, temps')) :
    p.mutators ≠ [] ∨ p.bindings = [] := by
  cases op with
  | assign => exact planAssign_writes h
  | define =>
    simp only [plan, Redirecting.ok_bind, Redirecting.ok_lift, Redirecting.ok_pure] at h
    obtain ⟨_, _, _, rfl, _⟩ := h
    exact .inr rfl
  | compound op =>
    simp only [plan] at h
    split at h
    case isTrue => exact planAssign_writes h
    case isFalse =>
      split at h
      case h_1 => exact planCompound_writes h
      case h_2 =>
        obtain ⟨rfl, _⟩ := Redirecting.ok_pure.1 h
        exact .inr rfl

theorem planStep_writes {target : Expr} {increment : Bool}
    (h : r.planStep o span target increment temps = .ok (p, temps')) :
    p.mutators ≠ [] ∨ p.bindings = [] := by
  rw [planStep] at h
  split at h
  · exact planAssign_writes h
  · exact planCompound_writes h

-- What leaves a header stands in one place after that.
theorem relocate_weaves {place : Header} {m : Relocated} {vs : List (Visit σ)}
    {before : Multiset Expr} (writes : p.mutators ≠ [] ∨ p.bindings = [])
    (h : r.relocate place span p = .ok m)
    (woven : Weaves r vs p.statements before (callsAmong (accessesOfStmts p.statements))) :
    Weaves r vs (m.before ++ m.after ++ m.header.toList) before
      (callsAmong (accessesOfStmts (m.before ++ m.after ++ m.header.toList))) := by
  have laid := laid_of_relocate writes h
  rw [laid.calls]
  exact woven.inside laid.stands

theorem header_weaves {place : Header} {s : Option Stmt} {m : Relocated}
    (plain : Stmt.optionHasShorthand s = false)
    (h : r.header o place s temps = .ok (m, temps')) :
    Weaves r (s.toList.flatMap (ofSimple o)) (m.before ++ m.after ++ m.header.toList)
      (callsAmong (accessesOfOption s))
      (callsAmong (accessesOfStmts (m.before ++ m.after ++ m.header.toList))) := by
  cases s with
  | none =>
    obtain ⟨rfl, _⟩ := Redirecting.ok_pure.1 h
    exact .refl ..
  | some s =>
    rw [Option.toList_some, List.flatMap_singleton, accessesOfOption]
    cases s
    case expr e =>
      simp only [header, Redirecting.ok_bind, Redirecting.ok_lift, Redirecting.ok_pure] at h
      obtain ⟨t, _, ⟨ht, _⟩, rfl, _⟩ := h
      simpa [accessesOfStmts, Stmt.accesses, ofSimple] using (value_weaves e ht).anywhere
    case assign span targets op values =>
      simp only [header, Redirecting.ok_bind, Redirecting.ok_lift] at h
      obtain ⟨p, _, hp, hm, _⟩ := h
      exact relocate_weaves (plan_writes hp) hm (plan_weaves plain hp)
    case step span target increment =>
      simp only [header, Redirecting.ok_bind, Redirecting.ok_lift] at h
      obtain ⟨p, _, hp, hm, _⟩ := h
      exact relocate_weaves (planStep_writes hp) hm (planStep_weaves plain hp)
    all_goals
      obtain ⟨rfl, _⟩ := Redirecting.ok_pure.1 h
      exact .of_eq (by simp [accessesOfStmts])

theorem rangeTarget_inserts {type : Option TypeExpr} {t : Option Target} {e : Option Expr}
    {prelude : List Stmt} (h : r.rangeTarget span type t temps = .ok ((e, prelude), temps')) :
    Inserts (InsertedAmong r.settings code t.toList) (t.toList.map Target.calls).sum
      (callsAmong (e.toList.flatMap Expr.accesses) + callsAmong (accessesOfStmts prelude)) := by
  rcases t with _ | _ | place | ⟨receiver, info⟩
  case none | blank =>
    simp only [rangeTarget, Redirecting.ok_pure, Prod.mk.injEq] at h
    obtain ⟨⟨rfl, rfl⟩, _⟩ := h
    exact .refl ..
  case plain =>
    simp only [rangeTarget, Redirecting.ok_bind, Redirecting.ok_modifyGet, Redirecting.ok_pure,
      Prod.mk.injEq] at h
    obtain ⟨name, _, _, ⟨rfl, rfl⟩, _⟩ := h
    exact .of_eq _ (by simp [accessesOfStmts, Stmt.accesses, Expr.accesses, Target.calls])
  case field =>
    simp only [rangeTarget, Redirecting.ok_bind, Redirecting.ok_modifyGet, Redirecting.ok_pure,
      Prod.mk.injEq] at h
    obtain ⟨name, _, _, _, _, _, ⟨rfl, rfl⟩, _⟩ := h
    have write := (write_inserts r.settings info ⟨.ident span name, type.map .known⟩
      (heldIn_self code span receiver)).mono
      (Q := InsertedAmong r.settings code [.field receiver info])
      fun c hc => ⟨receiver, info, List.mem_singleton_self _, hc⟩
    simpa [accessesOfStmts, Expr.accesses, Target.calls] using write

theorem rangeHeader_weaves {key value : Option Expr} {type : Option StaticType} {head : RangeHeader}
    (h : r.rangeHeader o span key value type temps = .ok (head, temps')) :
    Weaves r (key.toList.flatMap (writes o) ++ value.toList.flatMap (writes o)) []
      (callsAmong (key.toList.flatMap Expr.accesses) + callsAmong (value.toList.flatMap Expr.accesses))
      (callsAmong (head.key.toList.flatMap Expr.accesses) +
        callsAmong (head.value.toList.flatMap Expr.accesses) +
        callsAmong (accessesOfStmts head.prelude)) := by
  simp only [rangeHeader, Redirecting.ok_bind, ok_mapM_target] at h
  obtain ⟨kt, _, ⟨hk, _⟩, vt, _, ⟨hv, _⟩, h⟩ := h
  refine ((targets_weave hk).1.append (targets_weave hv).1).then_inserts ?_
  split at h
  case isTrue =>
    simp only [Redirecting.ok_bind, Redirecting.ok_pure] at h
    obtain ⟨⟨newKey, first⟩, _, hk', ⟨newValue, second⟩, _, hv', rfl, _⟩ := h
    have both := ((rangeTarget_inserts hk').mono fun c hc => insertedFor_of_among hk
        (List.subset_append_left _ (value.toList.flatMap (writes o))) (.refl []) hc).add
      ((rangeTarget_inserts hv').mono fun c hc => insertedFor_of_among hv
        (List.subset_append_right (key.toList.flatMap (writes o)) _) (.refl []) hc)
    simpa [accessesOfStmts_eq, add_add_add_comm] using both
  case isFalse plain =>
    obtain ⟨rfl, _⟩ := Redirecting.ok_pure.1 h
    simp only [Bool.or_eq_true, not_or, Bool.not_eq_true] at plain
    have keys := places_calls? hk plain.1
    have values := places_calls? hv plain.2
    exact .of_eq _ (by simp [keys, values, accessesOfStmts])

theorem value?_weaves {e e' : Option Expr} (h : r.value? o e = .ok e') :
    Weaves r (e.toList.flatMap (reads o)) [] (callsAmong (e.toList.flatMap Expr.accesses))
      (callsAmong (e'.toList.flatMap Expr.accesses)) := by
  cases e with
  | none =>
    obtain rfl := ok_pure.1 h
    exact .refl ..
  | some e =>
    simp only [value?, ok_bind, ok_pure] at h
    obtain ⟨t, ht, rfl⟩ := h
    simpa using value_weaves e ht

theorem accesses_statements (b : Block) : accessesOfStmts b.statements = b.accesses := by
  cases b
  rfl

theorem accessesOfOption_eq (s : Option Stmt) :
    accessesOfOption s = s.toList.flatMap Stmt.accesses := by
  cases s <;> simp [accessesOfOption]

mutual

theorem stmt_weaves {elseIf : Bool} {out : List Stmt} {temps temps' : Temporaries} {o : σ} :
    (s : Stmt) → s.hasShorthand = false → r.stmt o elseIf s temps = .ok (out, temps') →
      Weaves r (ofStmt o s) out (callsAmong s.accesses) (callsAmong (accessesOfStmts out))
  | .empty _, _, h | .breakLoop _, _, h | .continueLoop _, _, h => by
    simp only [stmt, Redirecting.ok_pure] at h
    obtain ⟨rfl, _⟩ := h
    exact .refl ..
  | .expr e, _, h => by
    simp only [stmt, Redirecting.ok_bind, Redirecting.ok_lift, Redirecting.ok_pure] at h
    obtain ⟨t, _, ⟨ht, _⟩, rfl, _⟩ := h
    simpa [ofStmt, ofSimple, accessesOfStmts, Stmt.accesses] using (value_weaves e ht).anywhere
  | .assign span targets op values, plain, h => by
    simp only [stmt, Redirecting.ok_bind, Redirecting.ok_pure] at h
    obtain ⟨p, _, hp, rfl, _⟩ := h
    exact plan_weaves plain hp
  | .step span target increment, plain, h => by
    simp only [stmt, Redirecting.ok_bind, Redirecting.ok_pure] at h
    obtain ⟨p, _, hp, rfl, _⟩ := h
    exact planStep_weaves plain hp
  | .var span names type values, _, h => by
    simp only [stmt, Redirecting.ok_bind, Redirecting.ok_lift, Redirecting.ok_pure] at h
    obtain ⟨ts, _, ⟨ht, _⟩, rfl, _⟩ := h
    simpa [ofStmt, accessesOfStmts, Stmt.accesses] using (exprs_weave ht).anywhere
  | .ret span values, _, h => by
    simp only [stmt, Redirecting.ok_bind, Redirecting.ok_lift, Redirecting.ok_pure] at h
    obtain ⟨ts, _, ⟨ht, _⟩, rfl, _⟩ := h
    simpa [ofStmt, accessesOfStmts, Stmt.accesses] using (exprs_weave ht).anywhere
  | .block body, plain, h => by
    simp only [stmt, Redirecting.ok_bind, Redirecting.ok_pure] at h
    obtain ⟨body', _, hb, rfl, _⟩ := h
    have inner := (block_weaves body plain hb).inside
      (.of_parts (List.mem_singleton_self (.block body')) (List.Subset.refl _))
    simpa [ofStmt, accessesOfStmts, Stmt.accesses] using inner
  | .ifElse span init cond body orElse, plain, h => by
    obtain ⟨m, c, body', orElse', _, _, hm, hc, hb, ho, rfl⟩ := ok_ifElse h
    simp only [Stmt.hasShorthand, Bool.or_eq_false_iff] at plain
    let s : Stmt := .ifElse span m.header c.expr body' orElse'
    have last : s ∈ m.before ++ [s] := by simp
    have moved : StandIn (m.before ++ m.after ++ m.header.toList) (m.before ++ [s]) := by
      rw [header_after (by split <;> simp) hm, List.append_nil]
      exact (StandIn.of_subset (List.subset_append_left ..)).append
        (.of_parts last (by simp [s, Stmt.parts]))
    have body := (block_weaves body plain.1.2 hb).inside
      (.of_parts last (by simp [s, Stmt.parts]))
    have orElse := (branch_weaves orElse plain.2 ho).inside
      (.of_parts last (by simp [s, Stmt.parts]))
    have parts := ((((header_weaves plain.1.1 hm).inside moved).append
      (value_weaves cond hc).anywhere).append body).append orElse
    simpa [s, ofStmt, accessesOfStmts_eq, accessesOfOption_eq, Stmt.accesses,
      header_after (by split <;> simp) hm, add_assoc] using parts
  | .forLoop span init cond post body, plain, h => by
    obtain ⟨m, c, mp, body', _, _, hm, hc, hp, _, hb, rfl⟩ := ok_forLoop h
    simp only [Stmt.hasShorthand, Bool.or_eq_false_iff] at plain
    let s : Stmt := .forLoop span m.header c mp.header
      (.mk body'.span (body'.statements ++ mp.after))
    have last : s ∈ m.before ++ [s] := by simp
    have moved : StandIn (m.before ++ m.after ++ m.header.toList) (m.before ++ [s]) := by
      rw [header_after (by simp) hm, List.append_nil]
      exact (StandIn.of_subset (List.subset_append_left ..)).append
        (.of_parts last (by simp [s, Stmt.parts]))
    have movedPost : StandIn (mp.before ++ mp.after ++ mp.header.toList) (m.before ++ [s]) := by
      rw [header_before hp, List.nil_append]
      refine StandIn.append (.of_parts last ?_) (.of_parts last (by simp [s, Stmt.parts]))
      intro t ht
      simp [s, Stmt.parts, Block.statements, ht]
    have body := (block_weaves body plain.2 hb).inside (.of_parts last fun t ht => by
      simp [s, Stmt.parts, Block.statements] at ht ⊢
      simp [ht])
    have start := (header_weaves plain.1.1 hm).inside moved
    have after := (header_weaves plain.1.2 hp).inside movedPost
    have parts := ((start.append (value?_weaves hc).anywhere).append after).append body
    refine parts.congr (by simp only [Stmt.accesses, callsAmong_append]) ?_
    simp only [accessesOfStmts_eq, accessesOfOption_eq, List.flatMap_append, List.flatMap_singleton,
      Stmt.accesses, Block.accesses, ← accesses_statements body', callsAmong_append, List.flatMap_nil,
      header_after (by simp) hm, header_before hp, callsAmong_nil]
    abel
  | .range span key value define iterable body, plain, h => by
    obtain ⟨t, head, body', _, ht, hh, hb, rfl⟩ := ok_range rfl h
    let inner := TypeOracle.declare o (.range span key value define iterable body)
    let s : Stmt := .range span head.key head.value head.define t.expr
      (.mk body'.span (head.prelude ++ body'.statements))
    have targets : Weaves r (if define then [] else
          key.toList.flatMap (writes inner) ++ value.toList.flatMap (writes inner)) [s]
        (callsAmong (key.toList.flatMap Expr.accesses) +
          callsAmong (value.toList.flatMap Expr.accesses))
        (callsAmong (head.key.toList.flatMap Expr.accesses) +
          callsAmong (head.value.toList.flatMap Expr.accesses) +
          callsAmong (accessesOfStmts head.prelude)) := by
      split at hh
      case isTrue =>
        obtain ⟨rfl, _⟩ := hh
        exact .of_eq (by simp [accessesOfStmts])
      case isFalse defines =>
        rw [if_neg defines]
        exact (rangeHeader_weaves hh).anywhere
    have body := (block_weaves body plain hb).inside
      (.of_parts (List.mem_singleton_self s) (List.subset_append_right ..))
    have parts := ((value_weaves iterable ht).anywhere.append targets).append body
    refine parts.congr ?_ ?_
    · simp only [Stmt.accesses, callsAmong_append]
      abel
    · simp only [accessesOfStmts, Stmt.accesses, Block.accesses, accessesOfStmts_eq,
        ← accesses_statements body', List.flatMap_append, callsAmong_append, List.append_nil]
      abel
  | .switch span init tag cases, plain, h => by
    obtain ⟨m, t, cases', _, hm, ht, hc, rfl⟩ := ok_switch h
    simp only [Stmt.hasShorthand, Bool.or_eq_false_iff] at plain
    let s : Stmt := .switch span m.header t cases'
    have last : s ∈ m.before ++ [s] := by simp
    have moved : StandIn (m.before ++ m.after ++ m.header.toList) (m.before ++ [s]) := by
      rw [header_after (by simp) hm, List.append_nil]
      exact (StandIn.of_subset (List.subset_append_left ..)).append
        (.of_parts last (by simp [s, Stmt.parts]))
    have inner := (cases_weave cases plain.2 hc).inside (.of_parts last (by simp [s, Stmt.parts]))
    have parts :=
      (((header_weaves plain.1 hm).inside moved).append (value?_weaves ht).anywhere).append inner
    simpa [s, ofStmt, accessesOfStmts_eq, accessesOfOption_eq, Stmt.accesses,
      header_after (by simp) hm, add_assoc] using parts
termination_by structural s => s

theorem branch_weaves {out : Option Stmt} {temps temps' : Temporaries} {o : σ} :
    (s : Option Stmt) → Stmt.optionHasShorthand s = false →
      r.branch o s temps = .ok (out, temps') →
      Weaves r (ofBranch o s) out.toList (callsAmong (accessesOfOption s))
        (callsAmong (accessesOfOption out))
  | none, _, h => by
    obtain ⟨rfl, _⟩ := Redirecting.ok_pure.1 h
    exact .refl ..
  | some s, plain, h => by
    by_cases walked : ofStmt o s ⊆ ofBranch o (some s)
    · rcases ok_branch h with ⟨s', rfl, hs⟩ | ⟨rfl, _, _⟩
      · simpa [accessesOfStmts, accessesOfOption] using (stmt_weaves s plain hs).among walked
      · exact .refl ..
    · cases s
      case ifElse | block => exact absurd (List.Subset.refl _) walked
      all_goals
        obtain ⟨rfl, _⟩ := Redirecting.ok_pure.1 h
        exact .refl ..
termination_by structural s => s

theorem block_weaves {out : Block} {temps temps' : Temporaries} {o : σ} :
    (b : Block) → Stmt.blockHasShorthand b = false → r.block o b temps = .ok (out, temps') →
      Weaves r (ofBlock o b) out.statements (callsAmong b.accesses) (callsAmong out.accesses)
  | .mk span statements, plain, h => by
    simp only [block, Redirecting.ok_bind, Redirecting.ok_pure] at h
    obtain ⟨ss, _, hs, rfl, _⟩ := h
    exact stmts_weave statements plain hs
termination_by structural s => s

theorem stmts_weave {out : List Stmt} {temps temps' : Temporaries} {o : σ} :
    (ss : List Stmt) → Stmt.listHasShorthand ss = false → r.stmts o ss temps = .ok (out, temps') →
      Weaves r (ofStmts o ss) out (callsAmong (accessesOfStmts ss)) (callsAmong (accessesOfStmts out))
  | [], _, h => by
    obtain ⟨rfl, _⟩ := Redirecting.ok_pure.1 h
    exact .refl ..
  | s :: rest, plain, h => by
    simp only [stmts, Redirecting.ok_bind, Redirecting.ok_pure] at h
    obtain ⟨first, _, hf, others, _, hr, rfl, _⟩ := h
    obtain ⟨plain, plainRest⟩ := Bool.or_eq_false_iff.1 plain
    have head := (stmt_weaves s plain hf).inside (.of_subset (List.subset_append_left first others))
    have tail := (stmts_weave rest plainRest hr).inside
      (.of_subset (List.subset_append_right first others))
    simpa [ofStmts, accessesOfStmts_eq] using head.append tail
termination_by structural s => s

theorem cases_weave {out : List Case} {temps temps' : Temporaries} {o : σ} :
    (cs : List Case) → Stmt.casesHaveShorthand cs = false →
      r.caseList o cs temps = .ok (out, temps') →
      Weaves r (ofCases o cs) (out.flatMap (·.body)) (callsAmong (accessesOfCases cs))
        (callsAmong (accessesOfCases out))
  | [], _, h => by
    obtain ⟨rfl, _⟩ := Redirecting.ok_pure.1 h
    exact .refl ..
  | .mk span values body :: rest, plain, h => by
    simp only [caseList, Redirecting.ok_bind, Redirecting.ok_lift, Redirecting.ok_pure] at h
    obtain ⟨ts, _, ⟨ht, _⟩, body', _, hb, others, _, hr, rfl, _⟩ := h
    obtain ⟨plain, plainRest⟩ := Bool.or_eq_false_iff.1 plain
    have inner := (stmts_weave body plain hb).inside
      (.of_subset (List.subset_append_left body' (others.flatMap (·.body))))
    have tail := (cases_weave rest plainRest hr).inside
      (.of_subset (List.subset_append_right body' (others.flatMap (·.body))))
    simpa [ofCases, accessesOfCases, Case.body, add_assoc] using
      ((exprs_weave ht).anywhere.append inner).append tail
termination_by structural s => s

end

end RedirectContext

end FieldAccess
