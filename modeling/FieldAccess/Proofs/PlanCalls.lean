import FieldAccess.Proofs.RedirectedCalls
import Mathlib.Tactic.Abel

namespace FieldAccess

section

variable {settings : Settings} {span : Span} {s : Temporaries} {info : FieldInfo}
  {value : TypedExpr} {receiver : Expr}

@[simp]
theorem callsAmong_callNamed (name : String) (e : Expr) :
    callsAmong (Expr.callNamed name [e] span).accesses =
      .callNamed name [e] span ::ₘ callsAmong e.accesses := by
  simp [Expr.callNamed, Expr.accesses, Expr.accessesOfList]

-- A literal without keys calls what its elements call.
theorem callsAmong_of_literalElements? {e : Expr} {elements : List Expr}
    (h : FieldInfo.literalElements? e = some elements) :
    callsAmong e.accesses = callsAmong (elements.flatMap Expr.accesses) := by
  unfold FieldInfo.literalElements? at h
  split at h <;> try contradiction
  case h_1 list =>
    split at h <;> try contradiction
    case isTrue positional =>
      obtain rfl := Option.some.inj h
      clear h
      rw [Expr.accesses]
      induction list with
      | nil => rfl
      | cons entry rest ih =>
        cases entry with
        | keyed => simp [Element.key?] at positional
        | positional value =>
          have rest := ih (by simpa [Element.key?] using positional)
          simp [Expr.accessesOfElements, Element.value, rest]

variable (settings span info value) in
theorem argument_inserts :
    Inserts (info.Conversion settings) (callsAmong value.expr.accesses)
      (callsAmong (info.argument settings value span).accesses) := by
  unfold FieldInfo.argument
  split
  case h_1 => exact .refl ..
  case h_2 enum converts =>
    have conversion (e : Expr) : Inserts (info.Conversion settings) (callsAmong e.accesses)
        (callsAmong (Expr.callNamed enum [e] span).accesses) := by
      rw [callsAmong_callNamed]
      exact .cons (.one converts) (.refl ..)
    split
    case isFalse => split <;> [exact .refl ..; exact conversion _]
    case isTrue =>
      split
      case isTrue => exact .refl ..
      case isFalse =>
        split
        case h_2 =>
          rw [callsAmong_callNamed]
          exact .cons (.slice converts) (.refl ..)
        case h_1 elements literal =>
          rw [callsAmong_of_literalElements? literal, Expr.accesses]
          clear literal
          induction elements with
          | nil => exact .refl ..
          | cons e rest ih => simpa [Expr.accessesOfElements] using (conversion e).add ih

variable (settings info value) in
-- The field of a receiver is written on the receiver or on what holds it.
theorem write_inserts {code : List Stmt} {place : Expr} (held : HeldIn code span receiver place) :
    Inserts (info.WrittenBy settings code receiver)
      (callsAmong place.accesses + callsAmong value.expr.accesses)
      (callsAmong (info.write settings place value span).accesses) := by
  have parts := (Inserts.refl (info.WrittenBy settings code receiver)
    (callsAmong place.accesses)).add
    ((argument_inserts settings span info value).mono fun _ converts => .conversion converts)
  simpa [write_accesses] using parts.cons (.mutator value held)

-- What is captured is called there and no longer where it stood.
theorem captureCalling_calls (e : Expr) :
    callsAmong (captureCalling span e s).1.1.accesses +
      callsAmong ((captureCalling span e s).1.2.values.flatMap Expr.accesses) =
      callsAmong e.accesses := by
  simp only [captureCalling]
  split <;> simp [captureOperand, state_map, state_pure, Expr.accesses]

theorem capturePlace_calls (e : Expr) :
    callsAmong (capturePlace span e s).1.1.accesses +
      callsAmong ((capturePlace span e s).1.2.values.flatMap Expr.accesses) =
      callsAmong e.accesses := by
  induction e using capturePlace.induct generalizing s with
  | case1 _ inner ih => simpa [capturePlace, Expr.accesses] using ih
  | case2 at_ base i =>
    have hb := @captureCalling_calls span s base
    have hi := @captureCalling_calls span (captureCalling span base s).2 i
    simp only [capturePlace, state_bind, state_pure, Expr.accesses, Captured.append_values,
      List.flatMap_append, callsAmong_append]
    rw [← hb, ← hi]
    abel
  | case3 at_ base member =>
    simpa [capturePlace, state_bind, state_pure, Expr.accesses] using captureCalling_calls base
  | case4 at_ inner =>
    simpa [capturePlace, state_bind, state_pure, Expr.accesses] using captureCalling_calls inner
  | case5 place h₁ h₂ h₃ h₄ =>
    rw [capturePlace.eq_5 _ _ h₁ h₂ h₃ h₄]
    simp [state_pure]

theorem captureTarget_calls (written : List String) (places : Bool) (t : Target) :
    (captureTarget span written places t s).1.1.calls +
      callsAmong ((captureTarget span written places t s).1.2.values.flatMap Expr.accesses) =
      t.calls := by
  cases t <;> simp only [captureTarget]
  case blank => rfl
  case plain place =>
    split
    · simpa [state_bind, state_pure, Target.calls] using capturePlace_calls place
    · simp [state_pure, Target.calls]
  case field receiver info =>
    split <;> simp [captureOperand, state_map, state_pure, Target.calls, Expr.accesses]

-- The calls in the value of a target.
def callsOfSource (v : Option TypedExpr) : Multiset Expr :=
  v.elim 0 fun v => callsAmong v.expr.accesses

theorem captureValue_calls (hint : String) (v : Option TypedExpr) :
    callsAmong (captureValue span hint v s).1.1.expr.accesses +
      callsAmong ((captureValue span hint v s).1.2.values.flatMap Expr.accesses) =
      callsOfSource v := by
  cases v with
  | none => simp [captureValue, state_map, Expr.accesses, callsOfSource]
  | some v =>
    simp only [captureValue]
    split <;> simp [state_map, state_pure, callsOfSource, Expr.accesses]

theorem discard_calls (v : Option TypedExpr) :
    callsAmong ((discard v).values.flatMap Expr.accesses) = callsOfSource v := by
  cases v with
  | none => rfl
  | some v =>
    simp only [discard]
    split
    case isTrue free => exact (callsAmong_of_isCallFree free).symm
    case isFalse => simp [callsOfSource]

-- The call is inserted for a field among targets.
def InsertedAmong (settings : Settings) (code : List Stmt) (ts : List Target) (c : Expr) : Prop :=
  ∃ receiver info, .field receiver info ∈ ts ∧ FieldInfo.WrittenBy settings code info receiver c

theorem planTarget_inserts {code : List Stmt} (inPlace : Bool) (t : Target) (v : Option TypedExpr)
    {ts : List Target} (held : ∀ place info, t = .field place info → ∃ receiver,
      .field receiver info ∈ ts ∧ HeldIn code span receiver place) :
    Inserts (InsertedAmong settings code ts) (t.calls + callsOfSource v)
      (callsAmong (planTarget settings span inPlace t v s).1.accesses) := by
  cases t with
  | blank =>
    rw [planTarget_blank]
    split
    case h_1 value given =>
      obtain rfl : v = some value := by cases inPlace <;> simp_all
      exact .of_eq _ (by simp [TargetPlan.accesses, Target.calls, callsOfSource, Expr.accesses])
    case h_2 =>
      exact .of_eq _ (by simp [TargetPlan.accesses, Target.calls, discard_calls])
  | plain place =>
    have captured := @captureValue_calls span s place.nameHint v
    rw [planTarget_plain]
    split
    case h_1 value given =>
      obtain rfl : v = some value := by cases inPlace <;> simp_all
      exact .of_eq _ (by simp [TargetPlan.accesses, Target.calls, callsOfSource])
    case h_2 =>
      refine .of_eq _ ?_
      simp only [TargetPlan.accesses, Target.calls, ← captured, callsAmong_append,
        Option.toList_some, List.flatMap_cons, List.flatMap_nil, List.append_nil, Option.toList_none]
      abel
  | field place info =>
    obtain ⟨receiver, mem, held⟩ := held place info rfl
    have captured := @captureValue_calls span s info.name v
    have write := (write_inserts settings info (captureValue span info.name v s).1.1 held).mono
      (Q := InsertedAmong settings code ts) fun c hc => ⟨receiver, info, mem, hc⟩
    have both := write.add (.refl _
      (callsAmong ((captureValue span info.name v s).1.2.values.flatMap Expr.accesses)))
    rw [planTarget_field, Target.calls, ← captured, ← add_assoc]
    simpa [TargetPlan.accesses, add_comm] using both

end

section

variable {settings : Settings} {span : Span} {s : Temporaries}

variable (span) in
theorem statement?_calls (c : Captured) :
    callsAmong ((c.statement? span).toList.flatMap Stmt.accesses) =
      callsAmong (c.values.flatMap Expr.accesses) := by
  have names : (c.names.map (Expr.ident span)).flatMap Expr.accesses = [] := by
    simp [List.flatMap_eq_nil_iff, Expr.accesses]
  unfold Captured.statement?
  dsimp only
  split
  · split
    case isTrue none => simp [List.isEmpty_iff.1 none]
    case isFalse => simp [Stmt.accesses, names]
  · simp [Stmt.accesses, names]

variable (span) in
theorem plainStatement?_calls (pairs : List (Expr × Expr)) :
    callsAmong ((plainStatement? span pairs).toList.flatMap Stmt.accesses) =
      callsAmong (pairs.flatMap fun (t, v) => t.accesses ++ v.accesses) := by
  unfold plainStatement?
  split
  case isTrue none => simp [List.isEmpty_iff.1 none]
  case isFalse =>
    simp [Stmt.accesses, callsAmong_flatMap, Function.comp_def, List.sum_map_add]

variable (span) in
-- The bindings call what is captured for operands and for values, or the values themselves.
theorem planBindings_calls (paired : Prop) [Decidable paired] (first second : Captured)
    (values : List Expr) :
    callsAmong ((planBindings span paired first second values).flatMap Stmt.accesses) =
      callsAmong (first.values.flatMap Expr.accesses) +
        callsAmong ((if paired then second.values else values).flatMap Expr.accesses) := by
  rw [planBindings_flatMap]
  split <;> simp [statement?_calls]

variable (span s) in
theorem planOperands_calls (ts : List Target) (vs : List TypedExpr) :
    ((planOperands span ts vs s).1.map fun operand =>
        operand.1.calls + callsAmong (operand.2.values.flatMap Expr.accesses)).sum =
      (ts.map Target.calls).sum := by
  unfold planOperands
  generalize planWritten ts = written
  generalize (ts.any (·.isPlain) && !planCallFree ts vs) = places
  have each := forall₂_mapM (captureTarget span written places) ts s
  generalize (ts.mapM (captureTarget span written places) s).1 = operands at each ⊢
  induction each with
  | nil => rfl
  | @cons t operand _ _ head _ ih =>
    obtain ⟨s', rfl⟩ := head
    simp only [List.map_cons, List.sum_cons, captureTarget_calls, ih]

-- Fields stay targets when their operands are captured.
theorem held_of_mem_planOperands {ts : List Target} {vs : List TypedExpr} {place : Expr}
    {info : FieldInfo} (h : .field place info ∈ (planOperands span ts vs s).1.map (·.1)) :
    ∃ receiver, .field receiver info ∈ ts ∧
      HeldIn (planTargets settings span ts vs s).1.bindings span receiver place := by
  obtain ⟨t, ht, captured, -⟩ :=
    exists_of_forall₂ (AssignPlan.operands_captured settings span s ts vs).flip h
  cases t with
  | field receiver info' =>
    obtain ⟨_, same, held⟩ := captured
    cases same
    exact ⟨receiver, ht, heldIn_of_bound held⟩
  | plain => cases captured.choose_spec.1
  | blank => cases captured

theorem planParts_inserts (ts : List Target) (vs : List TypedExpr) :
    Inserts (InsertedAmong settings (planTargets settings span ts vs s).1.bindings ts)
      ((((planOperands span ts vs s).1.map (·.1)).map Target.calls).sum +
        ((planSources ts vs).map callsOfSource).sum)
      (((planParts settings span ts vs s).1.map (callsAmong ·.accesses)).sum) := by
  have lengths : ((planOperands span ts vs s).1.map (·.1)).length = (planSources ts vs).length := by
    rw [List.length_map, length_planOperands, length_planSources]
  have pairs := List.sum_map_add (f := Target.calls ∘ Prod.fst) (g := callsOfSource ∘ Prod.snd)
    (l := ((planOperands span ts vs s).1.map (·.1)).zip (planSources ts vs))
  rw [← List.map_map, ← List.map_map, List.map_fst_zip (Nat.le_of_eq lengths),
    List.map_snd_zip (Nat.le_of_eq lengths.symm)] at pairs
  rw [← pairs]
  refine Inserts.sum (fun pair plan mem made => ?_) (forall₂_mapM _ _ _)
  obtain ⟨s', rfl⟩ := made
  refine planTarget_inserts _ _ _ fun place info same => ?_
  exact held_of_mem_planOperands (same ▸ (List.of_mem_zip (a := pair.1) (b := pair.2) mem).1)

variable (settings span s) in
-- What is captured for the values, or bound to all of them, calls what the values call.
theorem planValues_calls (ts : List Target) (vs : List TypedExpr) :
    callsAmong (((planParts settings span ts vs s).1.flatMap (·.captured.values)).flatMap
        Expr.accesses) +
      (if ts.length = vs.length then 0 else callsAmong ((vs.map (·.expr)).flatMap Expr.accesses)) =
    callsAmong ((if ts.length = vs.length then
        (planParts settings span ts vs s).1.flatMap (·.captured.values) else vs.map (·.expr)).flatMap
        Expr.accesses) := by
  split
  case isTrue => exact add_zero _
  case isFalse unpaired =>
    rw [List.flatMap_eq_nil_iff.2 (planParts_unpaired unpaired)]
    exact zero_add _

theorem planSources_calls (ts : List Target) (vs : List TypedExpr) :
    ((planSources ts vs).map callsOfSource).sum +
        (if ts.length = vs.length then 0 else callsAmong ((vs.map (·.expr)).flatMap Expr.accesses)) =
      callsAmong ((vs.map (·.expr)).flatMap Expr.accesses) := by
  unfold planSources
  split
  · simp [callsAmong_flatMap, callsOfSource, Function.comp_def]
  · simp [callsOfSource]

variable (settings span s) in
-- What targets and values call is called once by the plan, and what is called besides is inserted for
-- the fields among the targets.
theorem planTargets_inserts (ts : List Target) (vs : List TypedExpr) :
    let p := (planTargets settings span ts vs s).1
    Inserts (InsertedAmong settings p.bindings ts)
      ((ts.map Target.calls).sum + callsAmong ((vs.map (·.expr)).flatMap Expr.accesses))
      (callsAmong (p.statements.flatMap Stmt.accesses)) := by
  intro p
  let operands := (planOperands span ts vs s).1
  let parts := (planParts settings span ts vs s).1
  let first := operands.foldl (· ++ ·.2) ({} : Captured)
  let unpaired := if ts.length = vs.length then 0
    else callsAmong ((vs.map (·.expr)).flatMap Expr.accesses)
  have before : (ts.map Target.calls).sum + callsAmong ((vs.map (·.expr)).flatMap Expr.accesses) =
      ((operands.map (·.1)).map Target.calls).sum + ((planSources ts vs).map callsOfSource).sum +
        (callsAmong (first.values.flatMap Expr.accesses) + unpaired) := by
    have captured : callsAmong (first.values.flatMap Expr.accesses) =
        (operands.map fun operand => callsAmong (operand.2.values.flatMap Expr.accesses)).sum := by
      rw [Captured.foldl_append_values Prod.snd, List.nil_append, List.flatMap_assoc,
        callsAmong_flatMap]
    rw [captured, ← planSources_calls ts vs, ← planOperands_calls span s ts vs,
      List.sum_map_add, List.map_map, add_add_add_comm]
    rfl
  have after : callsAmong (p.statements.flatMap Stmt.accesses) =
      (parts.map (callsAmong ·.accesses)).sum +
        (callsAmong (first.values.flatMap Expr.accesses) + unpaired) := by
    let second := parts.foldl (· ++ ·.captured) ({} : Captured)
    have statements : p.statements =
        planBindings span (ts.length = vs.length) first second (vs.map (·.expr)) ++
          (plainStatement? span (parts.filterMap (·.plain))).toList ++
          parts.filterMap (·.mutator) := rfl
    have bindings := planBindings_calls span (ts.length = vs.length) first second (vs.map (·.expr))
    rw [Captured.foldl_append_values TargetPlan.captured, List.nil_append,
      ← planValues_calls settings span s] at bindings
    have split : (parts.map (callsAmong ·.accesses)).sum =
        callsAmong ((parts.flatMap (·.captured.values)).flatMap Expr.accesses) +
          callsAmong ((parts.filterMap (·.plain)).flatMap fun (t, v) => t.accesses ++ v.accesses) +
          callsAmong ((parts.filterMap (·.mutator)).flatMap Stmt.accesses) := by
      simp only [List.filterMap_eq_flatMap_toList, List.flatMap_assoc, ← callsAmong_flatMap,
        ← callsAmong_append]
      simp only [callsAmong_flatMap, TargetPlan.accesses, callsAmong_append, List.sum_map_add]
    rw [split, statements, List.flatMap_append, List.flatMap_append, callsAmong_append,
      callsAmong_append, bindings, plainStatement?_calls]
    simp only [unpaired]
    abel
  rw [before, after]
  exact (planParts_inserts ts vs).add (.refl ..)

end

end FieldAccess
