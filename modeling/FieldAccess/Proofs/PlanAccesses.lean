import FieldAccess.Proofs.PlanParts
import FieldAccess.Proofs.Visits

namespace FieldAccess

theorem accessesOfStmts_eq (ss : List Stmt) : accessesOfStmts ss = ss.flatMap Stmt.accesses := by
  induction ss <;> simp_all [accessesOfStmts]

theorem accesses_subset_of_mem {s : Stmt} {ss : List Stmt} (h : s ∈ ss) :
    s.accesses ⊆ accessesOfStmts ss := by
  intro a ha
  rw [accessesOfStmts_eq]
  exact List.mem_flatMap.2 ⟨s, h, ha⟩

theorem Expr.accesses_subset_of_mem {e : Expr} {es : List Expr} (h : e ∈ es) :
    e.accesses ⊆ es.flatMap accesses :=
  fun _ ha => List.mem_flatMap.2 ⟨e, h, ha⟩

-- Whoever calls nothing holds no call, so none of its parts calls anything either.
mutual

theorem Expr.isCallFree_of_mem_accesses {a : Expr} :
    (e : Expr) → e.isCallFree → a ∈ e.accesses → a.isCallFree
  | .ident _ _, _, h | .literal _ _, _, h | .typeOperand _ _, _, h => by simp [accesses] at h
  | .select span base member, hf, h => by
    rcases List.mem_cons.1 h with rfl | h
    · exact hf
    · exact isCallFree_of_mem_accesses base (by simpa [isCallFree] using hf) h
  | .call _ _ _ _, hf, _ => by simp [isCallFree] at hf
  | .index _ base i, hf, h => by
    simp only [isCallFree, Bool.and_eq_true] at hf
    rcases List.mem_append.1 h with h | h
    · exact isCallFree_of_mem_accesses base hf.1 h
    · exact isCallFree_of_mem_accesses i hf.2 h
  | .binary _ _ left right, hf, h => by
    simp only [isCallFree, Bool.and_eq_true] at hf
    rcases List.mem_append.1 h with h | h
    · exact isCallFree_of_mem_accesses left hf.1 h
    · exact isCallFree_of_mem_accesses right hf.2 h
  | .unary _ _ operand, hf, h => isCallFree_of_mem_accesses operand hf h
  | .paren _ inner, hf, h => isCallFree_of_mem_accesses inner hf h
  | .composite _ _ elements, hf, h => areCallFree_of_mem_accesses elements hf h

theorem Expr.areCallFree_of_mem_accesses {a : Expr} :
    (es : List Element) → Expr.areCallFree es → a ∈ Expr.accessesOfElements es → a.isCallFree
  | [], _, h => by simp [accessesOfElements] at h
  | .positional value :: rest, hf, h => by
    simp only [areCallFree, Bool.and_eq_true] at hf
    rcases List.mem_append.1 h with h | h
    · exact isCallFree_of_mem_accesses value hf.1 h
    · exact areCallFree_of_mem_accesses rest hf.2 h
  | .keyed key value :: rest, hf, h => by
    simp only [areCallFree, Bool.and_eq_true] at hf
    rcases List.mem_append.1 h with h | h
    · rcases List.mem_append.1 h with h | h
      · exact isCallFree_of_mem_accesses key hf.1.1 h
      · exact isCallFree_of_mem_accesses value hf.1.2 h
    · exact areCallFree_of_mem_accesses rest hf.2 h

end

-- The accesses in the operands of a place; a selector is no access of its own there.
def Expr.placeAccesses : Expr → List Expr
  | select _ base _ => base.accesses
  | paren _ inner => inner.placeAccesses
  | e => e.accesses

def Target.accesses : Target → List Expr
  | .field receiver _ => receiver.accesses
  | .plain place => place.placeAccesses
  | .blank => []

theorem Expr.placeAccesses_subset (e : Expr) : e.placeAccesses ⊆ e.accesses := by
  induction e using Expr.placeAccesses.induct <;> simp_all [placeAccesses, accesses]

-- A field is written by a call of its mutator, on its receiver or on a variable that holds it.
def Target.WrittenIn (out : List Expr) : Target → Prop
  | .field receiver info => ∃ span place arg,
      (place = receiver ∨ ∃ span name, place = .ident span name) ∧
      .call span (.select span place info.mutator) [] [arg] ∈ out
  | _ => True

theorem Target.WrittenIn.mono {out out' : List Expr} {t : Target} (h : t.WrittenIn out)
    (sub : out ⊆ out') : t.WrittenIn out' := by
  cases t <;> try trivial
  case field =>
    obtain ⟨span, place, arg, hp, hm⟩ := h
    exact ⟨span, place, arg, hp, sub hm⟩

namespace RedirectContext

open Visit

variable {σ : Type} [TypeOracle σ] {r : RedirectContext} {o : σ}

-- Redirection keeps the form of an expression, except for selectors.
theorem placeAccesses_value {e : Expr} {t : TypedExpr}
    (hs : ∀ span base member, e ≠ .select span base member)
    (hp : ∀ span inner, e ≠ .paren span inner) (h : r.value o e = .ok t) :
    t.expr.placeAccesses = t.expr.accesses := by
  cases e <;> simp only [value, ok_bind, ok_pure] at h <;>
    grind [Expr.placeAccesses, Expr.accesses]

-- The selectors of a target are those that it evaluates, and itself.
theorem target_writes {t : Target} :
    (e : Expr) → r.target o e = .ok t → ∀ v ∈ writes o e,
      v.ReadIn r t.accesses ∨ v.use = .write ∧ r.target v.oracle v.selector = .ok t
  | .ident _ _, _, v, hv => by simp [writes] at hv
  | .paren _ inner, h, v, hv => target_writes inner (by simpa [target] using h) v hv
  | .select span base member, h, v, hv => by
    rcases List.mem_cons.1 hv with rfl | hv
    · exact .inr ⟨rfl, h⟩
    · simp only [target, ok_bind] at h
      obtain ⟨b, hb, res, _, ht⟩ := h
      refine .inl ((value_reads base hb v hv).mono ?_)
      cases res <;> obtain rfl := ok_pure.1 ht <;> simp [Target.accesses, Expr.placeAccesses]
  | .literal _ _, _, v, hv | .typeOperand _ _, _, v, hv => by simp [writes, reads] at hv
  | .call _ _ _ _, h, v, hv | .index _ _ _, h, v, hv | .binary _ _ _ _, h, v, hv
  | .unary _ _ _, h, v, hv | .composite _ _ _, h, v, hv => by
    simp only [target, ok_bind, ok_pure] at h
    obtain ⟨t, ht, hp⟩ := h
    subst hp
    refine .inl ((value_reads _ ht v hv).mono ?_)
    rw [Target.accesses, placeAccesses_value (by simp) (by simp) ht]
    exact List.Subset.refl _

end RedirectContext

namespace Captured

-- Whatever is captured is evaluated.
theorem accesses_statement? (c : Captured) (span : Span) :
    c.values.flatMap Expr.accesses ⊆ accessesOfStmts (c.statement? span).toList := by
  simp only [statement?]
  split
  · split
    · simp_all
    · simp [accessesOfStmts, Stmt.accesses]
  · simp [accessesOfStmts, Stmt.accesses]

end Captured

section

variable {settings : Settings} {span : Span} {s : Temporaries}

theorem captureCalling_accesses (e : Expr) :
    e.accesses ⊆ (captureCalling span e s).1.1.accesses ++
      (captureCalling span e s).1.2.values.flatMap Expr.accesses := by
  simp only [captureCalling]
  split <;> simp [captureOperand, state_map, state_pure]

theorem capturePlace_accesses (e : Expr) :
    e.placeAccesses ⊆ (capturePlace span e s).1.1.placeAccesses ++
      (capturePlace span e s).1.2.values.flatMap Expr.accesses := by
  induction e using capturePlace.induct generalizing s with
  | case1 _ inner ih => simpa [capturePlace, Expr.placeAccesses] using ih
  | case2 at_ base i =>
    have hb := @captureCalling_accesses span s base
    have hi := @captureCalling_accesses span (captureCalling span base s).2 i
    simp only [capturePlace, state_bind, state_pure, Expr.placeAccesses, Expr.accesses,
      Captured.append_values, List.flatMap_append]
    grind
  | case3 at_ base member =>
    simpa [capturePlace, state_bind, state_pure, Expr.placeAccesses]
      using captureCalling_accesses base
  | case4 at_ inner =>
    simpa [capturePlace, state_bind, state_pure, Expr.placeAccesses, Expr.accesses]
      using captureCalling_accesses inner
  | case5 place h₁ h₂ h₃ h₄ =>
    rw [capturePlace.eq_5 _ _ h₁ h₂ h₃ h₄]
    simp [state_pure]

-- Targets keep their kind, fields also their receiver unless a variable takes its place.
def Target.CapturedAs : Target → Target → Prop
  | .field receiver info, t =>
    ∃ place, t = .field place info ∧ (place = receiver ∨ ∃ span name, place = .ident span name)
  | .plain _, t => ∃ place, t = .plain place
  | .blank, t => t = .blank

variable (span s) in
theorem captureTarget_capturedAs (written : List String) (places : Bool) (t : Target) :
    t.CapturedAs (captureTarget span written places t s).1.1 := by
  cases t <;> simp only [captureTarget, Target.CapturedAs] <;> (try split) <;>
    simp [captureOperand, state_map, state_pure]

theorem captureTarget_accesses (written : List String) (places : Bool) (t : Target) :
    t.accesses ⊆ (captureTarget span written places t s).1.1.accesses ++
      (captureTarget span written places t s).1.2.values.flatMap Expr.accesses := by
  cases t <;> simp only [captureTarget]
  case blank => simp [Target.accesses]
  case plain place =>
    split
    · simpa [state_bind, state_pure, Target.accesses] using capturePlace_accesses place
    · simp [state_pure]
  case field receiver info =>
    split <;> simp [captureOperand, state_map, state_pure, Target.accesses]

-- Conversions to an enumeration are put around a value, or around the elements of a literal.
theorem argument_accesses (info : FieldInfo) (value : TypedExpr) :
    value.expr.accesses ⊆ (info.argument settings value span).accesses := by
  simp only [FieldInfo.argument]
  split
  case h_1 => simp
  case h_2 enum he =>
    split
    case isFalse => split <;> simp [Expr.callNamed, Expr.accesses, Expr.accessesOfList]
    case isTrue =>
      split
      case isTrue => simp
      case isFalse =>
        split
        case h_2 => simp [Expr.callNamed, Expr.accesses, Expr.accessesOfList]
        case h_1 elements hl =>
          simp only [FieldInfo.literalElements?] at hl
          split at hl <;> try contradiction
          case h_1 list hv =>
            simp only [hv, Expr.accesses]
            split at hl <;> simp at hl
            case isTrue hk =>
              subst hl
              clear hv
              induction list with
              | nil => simp [Expr.accessesOfElements]
              | cons entry rest ih =>
                cases entry <;> simp_all [Expr.accessesOfElements, Expr.callNamed, Expr.accesses,
                  Expr.accessesOfList, Element.key?, Element.value]

theorem captureValue_accesses (hint : String) (v : TypedExpr) :
    v.expr.accesses ⊆ (captureValue span hint (some v) s).1.1.expr.accesses ++
      (captureValue span hint (some v) s).1.2.values.flatMap Expr.accesses := by
  simp only [captureValue]
  split <;> simp [state_map, state_pure]

def TargetPlan.accesses (p : TargetPlan) : List Expr :=
  p.captured.values.flatMap Expr.accesses ++
    p.plain.toList.flatMap (fun (t, v) => t.accesses ++ v.accesses) ++
    p.mutator.toList.flatMap Stmt.accesses

theorem write_accesses (info : FieldInfo) (receiver : Expr) (value : TypedExpr) :
    (info.write settings receiver value span).accesses =
      .call span (.select span receiver info.mutator) [] [info.argument settings value span] ::
      .select span receiver info.mutator :: (receiver.accesses ++
        (info.argument settings value span).accesses) := by
  simp [FieldInfo.write, Stmt.accesses, Expr.accesses, Expr.accessesOfList]

theorem planTarget_target (inPlace : Bool) (t : Target) (v : Option TypedExpr) :
    t.accesses ⊆ (planTarget settings span inPlace t v s).1.accesses ∧
    t.WrittenIn (planTarget settings span inPlace t v s).1.accesses := by
  cases t with
  | blank => simp [Target.accesses, Target.WrittenIn]
  | plain place =>
    have := place.placeAccesses_subset
    rw [planTarget_plain]
    split <;> simp [Target.accesses, Target.WrittenIn, TargetPlan.accesses] <;> grind
  | field receiver info =>
    simp only [planTarget_field, Target.accesses, Target.WrittenIn, TargetPlan.accesses,
      write_accesses, Option.toList, List.flatMap_cons]
    refine ⟨fun _ h => by simp [h], span, receiver,
      info.argument settings (captureValue span info.name v s).1.1 span, .inl rfl, by simp⟩

theorem planTarget_value (inPlace : Bool) (t : Target) (v : TypedExpr) :
    v.expr.isCallFree ∨
      v.expr.accesses ⊆ (planTarget settings span inPlace t (some v) s).1.accesses := by
  cases t with
  | blank =>
    cases hf : v.expr.isCallFree <;> cases inPlace <;>
      simp [planTarget_blank, TargetPlan.accesses, discard, hf, Expr.accesses]
  | plain place =>
    right
    have := @captureValue_accesses span s place.nameHint v
    cases inPlace <;> simp [planTarget_plain, TargetPlan.accesses]
    grind
  | field receiver info =>
    right
    have sub := @captureValue_accesses span s info.name v
    simp only [planTarget_field, TargetPlan.accesses, Option.toList, List.flatMap_cons,
      write_accesses]
    have := @argument_accesses settings span info
      (captureValue span info.name (some v) s).1.1
    grind

theorem Target.CapturedAs.writtenIn {t t' : Target} {out : List Expr} (h : t.CapturedAs t')
    (hw : t'.WrittenIn out) : t.WrittenIn out := by
  cases t <;> try trivial
  case field receiver info =>
    obtain ⟨place, ht, hp⟩ := h
    subst ht
    obtain ⟨at_, place', arg, hp', hm⟩ := hw
    refine ⟨at_, place', arg, ?_, hm⟩
    rcases hp' with rfl | hp'
    · exact hp
    · exact .inr hp'

theorem accesses_plainStatement? {pairs : List (Expr × Expr)} {pair : Expr × Expr}
    (h : pair ∈ pairs) :
    pair.1.accesses ++ pair.2.accesses ⊆ accessesOfStmts (plainStatement? span pairs).toList := by
  have ne : pairs ≠ [] := List.ne_nil_of_mem h
  simp only [plainStatement?, List.isEmpty_iff, ne, if_false, Option.toList, accessesOfStmts,
    Stmt.accesses, List.append_nil]
  intro a ha
  simp only [List.mem_append, List.mem_flatMap, List.mem_map] at ha ⊢
  grind

-- The parts of a plan are put together with nothing left out, given that the variables of unpaired
-- targets have no values of their own.
theorem AssignPlan.accesses_of_parts {first second : Captured} {plans : List TargetPlan}
    {paired : Prop} [Decidable paired] {values : List Expr} {p : AssignPlan}
    (captured : second.values = plans.flatMap (·.captured.values))
    (bindings : p.bindings =
      planBindings span paired first second values)
    (plain : p.plain = plainStatement? span (plans.filterMap (·.plain)))
    (mutators : p.mutators = plans.filterMap (·.mutator))
    (unpaired : ¬paired → ∀ plan ∈ plans, plan.captured.values = []) :
    first.values.flatMap Expr.accesses ⊆ accessesOfStmts p.statements ∧
    (∀ plan ∈ plans, plan.accesses ⊆ accessesOfStmts p.statements) ∧
    (¬paired → values.flatMap Expr.accesses ⊆ accessesOfStmts p.statements) := by
  have bound {c : Captured}
      (h : c ∈ if paired then [first ++ second] else [first, ⟨second.names, values⟩]) :
      c.values.flatMap Expr.accesses ⊆ accessesOfStmts p.statements := by
    intro a ha
    have := c.accesses_statement? span ha
    simp only [accessesOfStmts_eq, List.mem_flatMap, Option.mem_toList] at this ⊢
    obtain ⟨s, hs, ha⟩ := this
    refine ⟨s, ?_, ha⟩
    rw [AssignPlan.statements, bindings, planBindings]
    simp only [List.mem_append, List.mem_filterMap]
    exact .inl (.inl ⟨c, h, hs⟩)
  refine ⟨?_, fun plan hm => ?_, fun hp => ?_⟩
  · by_cases hp : paired
    · exact fun a ha => bound (c := first ++ second) (by simp [hp]) (by simp_all)
    · exact bound (by simp [hp])
  · intro a ha
    rcases List.mem_append.1 ha with ha | ha
    · rcases List.mem_append.1 ha with ha | ha
      · by_cases hp : paired
        · refine bound (c := first ++ second) (by simp [hp]) ?_
          simp only [Captured.append_values, captured, List.mem_flatMap, List.mem_append] at ha ⊢
          grind
        · simp [unpaired hp plan hm] at ha
      · simp only [List.mem_flatMap, Option.mem_toList] at ha
        obtain ⟨pair, hpair, ha⟩ := ha
        have := @accesses_plainStatement? span _ _
          (List.mem_filterMap.2 ⟨plan, hm, hpair⟩) _ ha
        rw [AssignPlan.statements, plain]
        simp_all [accessesOfStmts_eq]
    · simp only [List.mem_flatMap, Option.mem_toList] at ha
      obtain ⟨s, hs, ha⟩ := ha
      refine accesses_subset_of_mem ?_ ha
      rw [AssignPlan.statements, mutators]
      exact List.mem_append_right _ (List.mem_filterMap.2 ⟨plan, hm, hs⟩)
  · exact bound (c := ⟨second.names, values⟩) (by simp [hp])

theorem captured_values_of_none (inPlace : Bool) (t : Target) :
    (planTarget settings span inPlace t none s).1.captured.values = [] := by
  cases t <;> cases inPlace <;> rfl

theorem mem_planParts {targets : List Target} {values : List TypedExpr}
    {pair : Target × Option TypedExpr}
    (h : pair ∈ ((planOperands span targets values s).1.map (·.1)).zip (planSources targets values)) :
    ∃ inPlace s', (planTarget settings span inPlace pair.1 pair.2 s').1 ∈
      (planParts settings span targets values s).1 :=
  ⟨_, exists_mem_mapM _ _ h⟩

theorem of_mem_planParts {targets : List Target} {values : List TypedExpr} {plan : TargetPlan}
    (h : plan ∈ (planParts settings span targets values s).1) :
    ∃ pair ∈ ((planOperands span targets values s).1.map (·.1)).zip (planSources targets values),
      ∃ inPlace s', (planTarget settings span inPlace pair.1 pair.2 s').1 = plan :=
  have ⟨pair, hp, s', hs⟩ := mem_mapM h
  ⟨pair, hp, _, s', hs⟩

-- Variables of unpaired targets have no values of their own.
theorem planParts_unpaired {targets : List Target} {values : List TypedExpr}
    (unpaired : targets.length ≠ values.length) :
    ∀ plan ∈ (planParts settings span targets values s).1, plan.captured.values = [] := by
  intro plan hm
  obtain ⟨pair, hp, inPlace, s', rfl⟩ := of_mem_planParts hm
  have source : pair.2 = none := by
    have mem := (List.of_mem_zip (a := pair.1) (b := pair.2) hp).2
    rw [planSources, if_neg unpaired] at mem
    obtain ⟨_, _, none⟩ := List.mem_map.1 mem
    exact none.symm
  rw [source]
  exact captured_values_of_none _ _

-- Each target has a part in the plan, made for what is left of the target after its operands are
-- captured.
theorem exists_part {targets : List Target} {t : Target} (values : List TypedExpr)
    (h : t ∈ targets) :
    ∃ operand ∈ (planOperands span targets values s).1, t.CapturedAs operand.1 ∧
      t.accesses ⊆ operand.1.accesses ++ operand.2.values.flatMap Expr.accesses ∧
      ∃ inPlace v s', (planTarget settings span inPlace operand.1 v s').1 ∈
        (planParts settings span targets values s).1 := by
  have lengths : ((planOperands span targets values s).1.map (·.1)).length =
      (planSources targets values).length := by
    rw [List.length_map, length_planOperands, length_planSources]
  obtain ⟨s', ho⟩ := exists_mem_mapM (captureTarget span (planWritten targets)
    (targets.any (·.isPlain) && !planCallFree targets values)) s h
  refine ⟨_, ho, captureTarget_capturedAs .., captureTarget_accesses .., ?_⟩
  have hm := List.mem_map_of_mem (f := (·.1)) ho
  change _ ∈ (planOperands span targets values s).1.map (·.1) at hm
  rw [← List.map_fst_zip (Nat.le_of_eq lengths)] at hm
  obtain ⟨pair, hp, he⟩ := List.mem_map.1 hm
  obtain ⟨inPlace, s', hplan⟩ := @mem_planParts settings _ _ _ _ _ hp
  exact ⟨inPlace, pair.2, s', he ▸ hplan⟩

-- All operands and values of an assignment to fields are evaluated, and all fields are written.
theorem planTargets_keeps (targets : List Target) (values : List TypedExpr) :
    let out := accessesOfStmts (planTargets settings span targets values s).1.statements
    (∀ t ∈ targets, t.accesses ⊆ out ∧ t.WrittenIn out) ∧
    (∀ v ∈ values, v.expr.isCallFree ∨ v.expr.accesses ⊆ out) := by
  intro out
  obtain ⟨first, parts, unpaired⟩ := @AssignPlan.accesses_of_parts span _ _
    (planParts settings span targets values s).1 (targets.length = values.length) _
    (values.map (·.expr)) (planTargets settings span targets values s).1
    (Captured.foldl_append_values TargetPlan.captured _ {}) rfl rfl rfl planParts_unpaired
  refine ⟨fun t ht => ?_, fun v hv => ?_⟩
  · obtain ⟨operand, ho, capturedAs, operandAccesses, inPlace, v, s', hplan⟩ :=
      @exists_part settings span s _ _ values ht
    obtain ⟨planAccesses, written⟩ := @planTarget_target settings span s' inPlace
      operand.1 v
    refine ⟨fun a ha => ?_, capturedAs.writtenIn (written.mono (parts _ hplan))⟩
    rcases List.mem_append.1 (operandAccesses ha) with ha | ha
    · exact parts _ hplan (planAccesses ha)
    · refine first (List.mem_flatMap.2 ?_)
      obtain ⟨e, he, ha⟩ := List.mem_flatMap.1 ha
      refine ⟨e, ?_, ha⟩
      rw [Captured.foldl_append_values Prod.snd]
      exact List.mem_append_right _ (List.mem_flatMap.2 ⟨_, ho, he⟩)
  · by_cases paired : targets.length = values.length
    · have hm : some v ∈ planSources targets values := by simp [planSources, paired, hv]
      have lengths : (planSources targets values).length ≤
          ((planOperands span targets values s).1.map (·.1)).length :=
        Nat.le_of_eq (by rw [List.length_map, length_planOperands, length_planSources])
      rw [← List.map_snd_zip lengths] at hm
      obtain ⟨pair, hp, he⟩ := List.mem_map.1 hm
      obtain ⟨inPlace, s', hplan⟩ := @mem_planParts settings _ _ _ _ _ hp
      have := @planTarget_value settings span s' inPlace pair.1 v
      rw [he] at hplan
      exact this.imp_right fun sub a ha => parts _ hplan (sub ha)
    · refine .inr fun a ha => unpaired paired (List.mem_flatMap.2 ⟨v.expr, ?_, ha⟩)
      exact List.mem_map_of_mem hv

-- A plan with a field among its targets has a mutator.
theorem planTargets_writesFields {targets : List Target} (values : List TypedExpr)
    (h : targets.any (·.isField)) :
    (planTargets settings span targets values s).1.mutators ≠ [] := by
  obtain ⟨t, ht, hf⟩ := List.any_eq_true.1 h
  obtain ⟨operand, _, capturedAs, _, inPlace, v, s', hplan⟩ :=
    @exists_part settings span s _ _ values ht
  cases t <;> simp [Target.isField] at hf
  obtain ⟨place, he, _⟩ := capturedAs
  rw [he, planTarget_field] at hplan
  exact List.ne_nil_of_mem (List.mem_filterMap.2 ⟨_, hplan, rfl⟩)

end

end FieldAccess
