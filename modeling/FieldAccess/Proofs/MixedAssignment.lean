import FieldAccess.Proofs.AssignmentShape
import FieldAccess.Proofs.CapturedPlaces

namespace FieldAccess

namespace Place

variable {N : List String} {f f₁ f' : Frame} {m m₁ n : Machine} {q : Place} {v : Value} {u : Unit}

-- A field is part of an object, and nothing is stored in a blank.
theorem write_apart (apart : q = .blank ∨ q.isField = true)
    (run : q.write v f m = .ok (u, f₁) m₁) : f₁ = f ∧ m₁.SameButObjects m := by
  cases q with
  | blank =>
    obtain ⟨_, got, rfl⟩ := ok_access_blank.1 run
    obtain ⟨-, rfl⟩ := Exec.ok_pure.1 got
    exact ⟨rfl, rfl, rfl, rfl⟩
  | field =>
    obtain ⟨rfl, rfl⟩ := ok_write_field.1 run
    exact ⟨rfl, rfl, rfl, rfl⟩
  | _ => simp [isField] at apart

theorem write_kept (kept : q = .blank ∨ q.IsElement N) (agrees : f.Agrees N f')
    (same : m.SameButObjects n) (run : q.write v f m = .ok (u, f₁) m₁) :
    ∃ f'₁ n₁, q.write v f' n = .ok (u, f'₁) n₁ ∧ f₁.Agrees N f'₁ ∧ m₁.SameButObjects n₁ := by
  rcases kept with rfl | element
  · obtain ⟨_, got, rfl⟩ := ok_access_blank.1 run
    obtain ⟨-, rfl⟩ := Exec.ok_pure.1 got
    exact ⟨f', n, rfl, agrees, same⟩
  · refine element.access ⟨fun same got => ?_⟩ agrees same run
    obtain ⟨e, rfl⟩ := Exec.ok_pure.1 got
    exact ⟨_, Exec.ok_pure.2 ⟨e, rfl⟩, same⟩

end Place

section

variable {p : Program} {call : CallHandler} {f : Frame} {N : List String} {span : Span}
  {m : Machine}

-- What the plan of a target leaves stores a value in a place, unless the place belongs to no
-- variable.
inductive TargetPlan.Stores (p : Program) (call : CallHandler) (N : List String) (f : Frame)
    (m : Machine) (part : TargetPlan) : Place × Value → Prop
  | kept {place value : Expr} {q : Place} {u : Value} : part.plain = some (place, value) →
      (q = .blank ∨ q.IsElement N) → Place.resolve p call f place m = .ok q m →
      Exec.eval p call f value m = .ok u m → Stores p call N f m part (q, u)
  | apart {q : Place} {u : Value} : part.plain = none → (q = .blank ∨ q.isField = true) →
      Stores p call N f m part (q, u)

theorem planTarget_stores {settings : Settings} {inPlace : Bool} {t : Target}
    {source : Option TypedExpr} (s : Temporaries) {q : Place} {u : Value} (suits : t.Suits N q)
    (denotes : t.At p call q f m) :
    let part := (planTarget settings span inPlace t source s).1
    part.Gives p call u f m → part.Stores p call N f m (q, u) := by
  intro part gives
  cases t with
  | field => exact .apart (by simp only [part, planTarget_field]) (.inr suits)
  | plain place =>
    have kept : ∃ value, part.plain = some (place, value) := by
      simp only [part, planTarget_plain]
      split <;> exact ⟨_, rfl⟩
    obtain ⟨value, e⟩ := kept
    exact .kept e (.inr suits) (denotes place rfl) (gives place value e)
  | blank =>
    obtain rfl : q = .blank := suits
    have kept : part.plain = none ∨ ∃ value, part.plain = some (.ident span "_", value) := by
      simp only [part, planTarget_blank]
      split
      · exact .inr ⟨_, rfl⟩
      · exact .inl rfl
    rcases kept with e | ⟨value, e⟩
    · exact .apart e (.inl rfl)
    · exact .kept e (.inl rfl) rfl (gives _ value e)

theorem planPairs_stores_elements {settings : Settings} {inPlace : Bool} {ts : List Target}
    {sources : List (Option TypedExpr)} (length : ts.length = sources.length) (s : Temporaries)
    {qs : List Place} {us : List Value} (suits : List.Forall₂ (Target.Suits N) ts qs)
    (denotes : List.Forall₂ (fun t q => t.At p call q f m) ts qs) :
    let parts := (planPairs settings span inPlace (ts.zip sources) s).1
    List.Forall₂ (fun part u => part.Gives p call u f m) parts us →
      List.Forall₂ (TargetPlan.Stores p call N f m) parts (qs.zip us) := by
  induction suits generalizing sources s us with
  | nil => exact fun _ => .nil
  | @cons t q ts qs suits _ ih =>
    obtain _ | ⟨source, sources⟩ := sources
    · cases length
    · intro parts gives
      simp only [parts, List.zip_cons_cons, planPairs_cons] at gives ⊢
      cases gives with
      | cons gives rest =>
        cases denotes with
        | cons denotes others =>
          exact .cons (planTarget_stores s suits denotes gives)
            (ih (Nat.succ.inj length) _ others rest)

-- What is left of an assignment stores in the elements what all of it would store there.
theorem exists_kept {parts : List TargetPlan} {writes : List (Place × Value)}
    (stores : List.Forall₂ (TargetPlan.Stores p call N f m) parts writes) :
    ∃ kept : List (Place × Value),
      Place.resolveEach p call f ((parts.filterMap (·.plain)).map (·.1)) m =
        .ok (kept.map (·.1)) m ∧
      Exec.all (Exec.actions p call f ((parts.filterMap (·.plain)).map (·.2))) m =
        .ok (kept.map (·.2)) m ∧
      ∀ {g g₁ g' : Frame} {m₀ m₁ n : Machine} {u : Unit},
        Place.writePairs writes g m₀ = .ok (u, g₁) m₁ → g.Agrees N g' → m₀.SameButObjects n →
        ∃ g'₁ n₁, Place.writePairs kept g' n = .ok ((), g'₁) n₁ ∧ g₁.Agrees N g'₁ ∧
          m₁.SameButObjects n₁ := by
  induction stores with
  | nil =>
    refine ⟨[], rfl, rfl, fun run agrees same => ?_⟩
    obtain ⟨-, rfl, rfl⟩ := Step.ok_pure.1 run
    exact ⟨_, _, rfl, agrees, same⟩
  | @cons part write parts writes head _ ih =>
    obtain ⟨kept, resolved, evaluated, written⟩ := ih
    cases head with
    | @kept place value q u plain suits denotes gives =>
      refine ⟨(q, u) :: kept, ?_, ?_, fun run agrees same => ?_⟩
      · rw [List.filterMap_cons_some plain]
        exact Exec.ok_bind.2 ⟨q, m, denotes, Exec.ok_bind.2 ⟨_, m, resolved, rfl⟩⟩
      · rw [List.filterMap_cons_some plain]
        exact Exec.ok_bind.2 ⟨u, m, gives, Exec.ok_bind.2 ⟨_, m, evaluated, rfl⟩⟩
      · obtain ⟨g₂, m₂, first, run⟩ := Place.ok_writePairs_cons.1 run
        obtain ⟨g', n, first', agrees, same⟩ := Place.write_kept suits agrees same first
        obtain ⟨g'₁, n₁, rest, result⟩ := written run agrees same
        exact ⟨g'₁, n₁, Place.ok_writePairs_cons.2 ⟨g', n, first', rest⟩, result⟩
    | apart plain suits =>
      refine ⟨kept, ?_, ?_, fun run agrees same => ?_⟩
      · rwa [List.filterMap_cons_none plain]
      · rwa [List.filterMap_cons_none plain]
      · obtain ⟨g₂, m₂, first, rest⟩ := Place.ok_writePairs_cons.1 run
        obtain ⟨rfl, same'⟩ := Place.write_apart suits first
        exact written rest agrees ⟨same'.maps.trans same.maps, same'.records.trans same.records,
          same'.globals.trans same.globals⟩

-- The plain part of a plan, run where everything is bound.
theorem plainPart_run {parts : List TargetPlan} {writes : List (Place × Value)}
    (stores : List.Forall₂ (TargetPlan.Stores p call N f m) parts writes) (rounds : Nat)
    {g g₁ : Frame} {m₁ : Machine} {u : Unit} (agrees : g.Agrees N f)
    (run : Place.writePairs writes g m = .ok (u, g₁) m₁) :
    ∃ f₁ n₁, Step.sequence (Step.steps p call rounds
        (plainStatement? span (parts.filterMap (·.plain))).toList) f m = .ok (.next, f₁) n₁ ∧
      g₁.Agrees N f₁ ∧ m₁.SameButObjects n₁ := by
  obtain ⟨kept, resolved, evaluated, written⟩ := exists_kept stores
  obtain ⟨f₁, n₁, run', agrees', same⟩ := written run agrees ⟨rfl, rfl, rfl⟩
  refine ⟨f₁, n₁, ?_, agrees', same⟩
  generalize parts.filterMap (·.plain) = pairs at resolved evaluated
  unfold plainStatement?
  split
  case isTrue empty =>
    obtain rfl := List.isEmpty_iff.1 empty
    have none : kept = [] := List.map_eq_nil_iff.1 (Exec.ok_pure.1 resolved).1.symm
    subst none
    obtain ⟨-, rfl, rfl⟩ := Step.ok_pure.1 run'
    rfl
  case isFalse =>
    simp only [Option.toList, Step.steps, Step.sequence_single, Step.exec]
    refine Step.ok_assign.2 ⟨_, m, _, m, resolved, (Exec.evalFor_paired ?_).2 evaluated, run', rfl⟩
    rw [List.length_map, List.length_map]

end

-- Variables with new names hold what they are declared with, and the others what they held.
theorem Frame.defineAll_holds {f : Frame} {N names : List String} {ws : List Value}
    (length : names.length = ws.length) (new : ∀ x ∈ names, x ≠ "_" → x ∉ N)
    (nodup : (names.filter (· ≠ "_")).Nodup) (scopes : f.scopes ≠ []) :
    f.Agrees N (f.defineAll (names.zip ws)) ∧ (f.defineAll (names.zip ws)).Holds names ws := by
  have extends₁ : f.Extends N (f.defineAll (names.zip ws)) := by
    refine .of_entries fun e he => ?_
    by_cases blank : e.1 = "_"
    · exact .inr blank
    · exact .inl (new e.1 (List.of_mem_zip he).1 blank)
  refine ⟨fun x hx => extends₁.get? hx scopes, fun e he named => ?_⟩
  refine Frame.get?_defineAll he ?_ named scopes
  rwa [List.map_fst_zip (Nat.le_of_eq length)]

section

variable {p : Program} {call : CallHandler} {f f₁ : Frame} {N : List String} {span : Span}
  {m m₁ : Machine} {ts : List Target} {vs : List TypedExpr}

-- One call that gives several values gives exactly these.
theorem Exec.length_evalFor_single {count : Nat} {e : Expr} {us : List Value} (many : 1 < count)
    (h : evalFor p call f count [e] m = .ok us m₁) : us.length = count := by
  rw [evalFor, if_pos many] at h
  obtain ⟨ws, _, _, h⟩ := ok_bind.1 h
  split at h
  case isTrue same =>
    obtain ⟨rfl, -⟩ := ok_pure.1 h
    exact same
  case isFalse => exact (ok_failType.1 h).elim

-- All that an assignment evaluates.
def assignEvaluates (ts : List Target) (vs : List TypedExpr) : List Expr :=
  ts.flatMap Target.operands ++ vs.map (·.expr)

-- The targets of an assignment are fields and elements of variables, and what its plan leaves where
-- it stands gives the same whatever the assignment evaluates.
structure StoresElements (p : Program) (call : CallHandler) (f : Frame) (N : List String)
    (ts : List Target) (vs : List TypedExpr) : Prop where
  targets : ∀ t ∈ ts, t.Steady p call f N (assignEvaluates ts vs)
  names : ∀ v ∈ vs, v.expr.names ⊆ N
  values : ∀ e ∈ ts.zip vs, e.1.keepsValue (planCallFree ts vs) e.2 = true →
    Exec.Steady (Exec.Reaches p call f (assignEvaluates ts vs)) (Exec.eval p call f e.2.expr)
  enough : ts.length = vs.length ∨ vs.length = 1

theorem capturedTargets_keepsValue {operands : List (Target × Captured)} {written : List String}
    {places inPlace : Bool} {Q : TypedExpr → Prop}
    (made : List.Forall₂ (fun t out => ∃ s, (captureTarget span written places t s).1 = out) ts
      operands) (h : ∀ e ∈ ts.zip vs, e.1.keepsValue inPlace e.2 = true → Q e.2) :
    ∀ e ∈ (operands.map (·.1)).zip vs, e.1.keepsValue inPlace e.2 = true → Q e.2 := by
  induction made generalizing vs with
  | nil => exact List.forall_mem_nil _
  | @cons t out ts operands head _ ih =>
    obtain ⟨s, rfl⟩ := head
    obtain _ | ⟨v, vs⟩ := vs
    · rw [List.zip_nil_right]
      exact List.forall_mem_nil _
    · have rest := ih fun e he => h e (List.mem_cons_of_mem _ he)
      refine List.forall_mem_cons.2 ⟨fun keeps => ?_, rest⟩
      rw [captureTarget_keepsValue] at keeps
      exact h (t, v) (List.mem_cons_self ..) keeps

-- What bindings leave: variables hold some values, and wherever they do something holds.
def BindingsRun (p : Program) (call : CallHandler) (rounds : Nat) (f : Frame) (N : List String)
    (names : List String) (bindings : List Stmt) (m m₁ : Machine)
    (P : Frame → Machine → Prop) : Prop :=
  ∃ ws : List Value, names.length = ws.length ∧
    Step.sequence (Step.steps p call rounds bindings) f m =
      .ok (.next, f.defineAll (names.zip ws)) m₁ ∧
    ∀ {f'}, f.Agrees N f' → f'.Holds names ws → P f' m₁

-- One statement binds operands and values if there is a value for each target.
theorem bindings_run_paired (rounds : Nat) {paired : Prop} [Decidable paired] (pairs : paired)
    {es values : List Expr} {c c' : Captured} {P Q : Frame → Machine → Prop} {m₂ : Machine}
    (first : c.Yields p call f N es m m₂ P) (second : c'.Yields p call f N es m₂ m₁ Q) :
    BindingsRun p call rounds f N (c.names ++ c'.names) (planBindings span paired c c' values) m m₁
      fun f' m' => P f' m' ∧ Q f' m' := by
  obtain ⟨-, ws, run, length, held⟩ := first.append second
  refine ⟨ws, length, ?_, fun agrees holds => held agrees holds (.refl _)⟩
  have one : planBindings span paired c c' values = ((c ++ c').statement? span).toList := by
    rw [planBindings, if_pos pairs]
    cases e : (c ++ c').statement? span <;> simp [e]
  have count : (c ++ c').values.length = (c ++ c').names.length := by
    rw [length, Exec.length_all run, Exec.actions_eq, List.length_map]
  rw [one]
  exact Step.captured_runs ((Exec.evalFor_paired count).2 run)

-- Otherwise a second statement binds the values, which come from one call.
theorem bindings_run_unpaired (rounds : Nat) {paired : Prop} [Decidable paired] (single : ¬paired)
    {es : List Expr} {e : Expr} {c c' : Captured} {P Q : Frame → Machine → Prop} {m₂ : Machine}
    {us : List Value} (first : c.Yields p call f N es m m₂ P) (mem : e ∈ es) (sub : e.names ⊆ N)
    (run : Exec.evalFor p call f c'.names.length [e] m₂ = .ok us m₁)
    (length : c'.names.length = us.length)
    (new : ∀ x ∈ c.names, x ≠ "_" → x ∉ N) (nodup : (c.names.filter (· ≠ "_")).Nodup)
    (scopes : f.scopes ≠ [])
    (given : ∀ {f'}, f'.Holds c'.names us → Q f' m₁) :
    BindingsRun p call rounds f N (c.names ++ c'.names) (planBindings span paired c c' [e]) m m₁
      fun f' m' => P f' m' ∧ Q f' m' := by
  obtain ⟨-, ws, evaluated, length', held⟩ := first
  have both : planBindings span paired c c' [e] = (c.statement? span).toList ++
      ((⟨c'.names, [e]⟩ : Captured).statement? span).toList := by
    rw [planBindings, if_neg single]
    simp only [List.filterMap_cons, List.filterMap_nil]
    cases c.statement? span <;> cases (⟨c'.names, [e]⟩ : Captured).statement? span <;> rfl
  have count : c.values.length = c.names.length := by
    rw [length', Exec.length_all evaluated, Exec.actions_eq, List.length_map]
  have agrees := (Frame.defineAll_holds length' new nodup scopes).1
  have run' : Exec.evalFor p call (f.defineAll (c.names.zip ws)) c'.names.length [e] m₂ =
      .ok us m₁ := by
    rwa [Exec.evalFor_agrees agrees _ (by simpa [namesOfExprs] using sub)]
  refine ⟨ws ++ us, ?_, ?_, fun agrees holds => ?_⟩
  · rw [List.length_append, List.length_append, length', length]
  · rw [both, Step.steps_append, Step.sequence_append_of_ok
      (Step.captured_runs ((Exec.evalFor_paired count).2 evaluated)), List.zip_append length',
      Frame.defineAll_append]
    exact Step.captured_runs run'
  · obtain ⟨first, second⟩ := (Frame.holds_append length').1 holds
    exact ⟨held agrees first (.step mem run (.refl _)), given second⟩

section

variable (settings : Settings) (span : Span) (ts : List Target) (vs : List TypedExpr)
  (temps : Temporaries)

-- What a plan binds for the operands of its targets.
def boundOperands : Captured :=
  let operands := (planOperands span ts vs temps).1
  ⟨operands.flatMap (·.2.names), operands.flatMap (·.2.values)⟩

-- What a plan binds for its values.
def boundValues : Captured :=
  let parts := (planParts settings span ts vs temps).1
  ⟨parts.flatMap (·.captured.names), parts.flatMap (·.captured.values)⟩

def boundNames : List String :=
  (boundOperands span ts vs temps).names ++ (boundValues settings span ts vs temps).names

theorem planTargets_bindings : (planTargets settings span ts vs temps).1.bindings =
    planBindings span (ts.length = vs.length) (boundOperands span ts vs temps)
      (boundValues settings span ts vs temps) (vs.map (·.expr)) := by
  simp only [planTargets_eq, Captured.foldl_append]
  rfl

-- The names of temporaries are new and different from each other.
theorem boundNames_new :
    (∀ x ∈ boundNames settings span ts vs temps, x ≠ "_" → x ∉ temps.taken) ∧
      ((boundNames settings span ts vs temps).filter (· ≠ "_")).Nodup := by
  have drawn : (boundNames settings span ts vs temps).filter (· ≠ "_") =
      planTemps settings span ts vs temps := by
    rw [← temps_captured, Captured.foldl_append, Captured.foldl_append]
    exact List.filter_append ..
  obtain ⟨-, fresh, nodup⟩ := planParts_draws settings span ts vs temps
  refine ⟨fun x hx named => ?_, drawn ▸ nodup⟩
  exact (fresh x (drawn ▸ List.mem_filter.2 ⟨hx, by simpa using named⟩)).1

end

section

variable (settings : Settings) {temps : Temporaries} {m₂ : Machine} {qs : List Place}
  {us : List Value} (plain : ts.any (·.isPlain) = true)
  (h : StoresElements p call f temps.taken ts vs)
include plain h

-- What is evaluated for the operands of the targets.
theorem boundOperands_yield
    (run : Place.resolveEach p call f (ts.map (Target.written span)) m = .ok qs m₁) :
    List.Forall₂ (Target.Suits temps.taken) ((planOperands span ts vs temps).1.map (·.1)) qs ∧
      (boundOperands span ts vs temps).Yields p call f temps.taken (assignEvaluates ts vs) m m₁
        fun f' m' => List.Forall₂ (fun t q => t.At p call q f' m')
          ((planOperands span ts vs temps).1.map (·.1)) qs := by
  refine captureTargets_run h.targets (List.subset_append_left _ _) (fun place mem => ?_)
    (forall₂_mapM _ ts temps) run
  rw [plain, Bool.true_and]
  cases free : planCallFree ts vs with
  | false => exact .inl rfl
  | true => exact .inr (List.all_eq_true.1 (Bool.and_eq_true_iff.1 free).2 _ mem)

-- What is evaluated for values that stand in pairs with the targets.
theorem boundValues_yield (paired : ts.length = vs.length)
    (run : Exec.evalFor p call f ts.length (vs.map (·.expr)) m = .ok us m₁) :
    (boundValues settings span ts vs temps).Yields p call f temps.taken (assignEvaluates ts vs) m m₁
      fun f' m' => List.Forall₂ (fun part u => part.Gives p call u f' m')
        (planParts settings span ts vs temps).1 us := by
  have planned : planParts settings span ts vs temps = planPairs settings span (planCallFree ts vs)
      (((planOperands span ts vs temps).1.map (·.1)).zip (vs.map some))
      (planOperands span ts vs temps).2 := by
    rw [planParts_eq, plain, Bool.true_and, planSources, if_pos paired]
  have captured := forall₂_mapM (captureTarget span (planWritten ts)
    (ts.any (·.isPlain) && !planCallFree ts vs)) ts temps
  have keeps := capturedTargets_keepsValue (Q := fun v => Exec.Steady (Exec.Reaches p call f
    (assignEvaluates ts vs)) (Exec.eval p call f v.expr)) captured h.values
  rw [boundValues, planned]
  exact planPairs_run settings span (planCallFree ts vs)
    ((List.length_map _).trans ((length_planOperands span temps).trans paired))
    (fun v hv => ⟨List.mem_append_right _ (List.mem_map_of_mem hv), h.names v hv⟩) keeps
    (planOperands span ts vs temps).2
    ((Exec.evalFor_paired (by rw [List.length_map, paired])).1 run)

omit h in
-- Values that come from one call go to variables, one for each target.
theorem boundValues_given {v : TypedExpr} (unpaired : ts.length ≠ [v].length)
    (run : Exec.evalFor p call f ts.length [v.expr] m = .ok us m₁) :
    (boundValues settings span ts [v] temps).names.length = us.length ∧ us.length = ts.length ∧
      ∀ {f' : Frame} {m' : Machine}, f'.Holds (boundValues settings span ts [v] temps).names us →
        List.Forall₂ (fun part u => part.Gives p call u f' m')
          (planParts settings span ts [v] temps).1 us := by
  have planned : planParts settings span ts [v] temps = planPairs settings span false
      (((planOperands span ts [v] temps).1.map (·.1)).zip
        (((planOperands span ts [v] temps).1.map (·.1)).map fun _ => none))
      (planOperands span ts [v] temps).2 := by
    rw [planParts_eq, planCallFree, decide_eq_false unpaired, Bool.false_and, Bool.false_and,
      Bool.and_false, planSources, if_neg unpaired]
    simp only [List.map_const', List.length_map, length_planOperands]
  have many : 1 < ts.length := by
    obtain ⟨t, mem, -⟩ := List.any_eq_true.1 plain
    have := List.length_pos_of_mem mem
    simp only [List.length_singleton] at unpaired
    omega
  have length := Exec.length_evalFor_single many run
  have operands : ((planOperands span ts [v] temps).1.map (·.1)).length = us.length := by
    rw [List.length_map, length_planOperands, length]
  obtain ⟨count, given⟩ :=
    planPairs_given p call settings span (planOperands span ts [v] temps).2 operands
  rw [boundValues, planned]
  exact ⟨count, length, given⟩

theorem planTargets_bindings_run (rounds : Nat) (scopes : f.scopes ≠ [])
    (resolved : Place.resolveEach p call f (ts.map (Target.written span)) m = .ok qs m₂)
    (evaluated : Exec.evalFor p call f ts.length (vs.map (·.expr)) m₂ = .ok us m₁) :
    BindingsRun p call rounds f temps.taken (boundNames settings span ts vs temps)
      (planTargets settings span ts vs temps).1.bindings m m₁ fun f' m' =>
        List.Forall₂ (fun t q => t.At p call q f' m')
            ((planOperands span ts vs temps).1.map (·.1)) qs ∧
          List.Forall₂ (fun part u => part.Gives p call u f' m')
            (planParts settings span ts vs temps).1 us := by
  obtain ⟨-, first⟩ := boundOperands_yield plain h resolved
  rw [planTargets_bindings]
  by_cases paired : ts.length = vs.length
  · exact bindings_run_paired rounds paired first
      (boundValues_yield settings plain h paired evaluated)
  · obtain ⟨v, rfl⟩ := List.length_eq_one_iff.1 (h.enough.resolve_left paired)
    obtain ⟨count, length, given⟩ := boundValues_given settings plain paired evaluated
    obtain ⟨new, nodup⟩ := boundNames_new settings span ts [v] temps
    rw [boundNames, List.filter_append] at nodup
    refine bindings_run_unpaired rounds paired first
      (List.mem_append_right _ (List.mem_singleton_self _)) (h.names v (List.mem_singleton_self _))
      ?_ count (fun x hx => new x (List.mem_append_left _ hx)) (List.nodup_append.1 nodup).1 scopes
      given
    rw [count, length]
    exact evaluated

-- The bindings and the plain part of a plan do to variables what the assignment does to them.
theorem planTargets_run (rounds : Nat) (scopes : f.scopes ≠ []) {flow : Flow}
    (run : Step.assign p call (ts.map (Target.written span)) .assign (vs.map (·.expr)) f m =
      .ok (flow, f₁) m₁) :
    let plan := (planTargets settings span ts vs temps).1
    ∃ f₂ m₂, Step.sequence (Step.steps p call rounds (plan.bindings ++ plan.plain.toList)) f m =
        .ok (.next, f₂) m₂ ∧ f₁.Agrees temps.taken f₂ ∧ m₁.SameButObjects m₂ := by
  intro plan
  obtain ⟨qs, m₂, us, m₃, resolved, evaluated, written, -⟩ := Step.ok_assign.1 run
  rw [Place.writeAll_eq] at written
  rw [List.length_map] at evaluated
  obtain ⟨suits, -⟩ := boundOperands_yield plain h resolved
  obtain ⟨ws, length, bind, held⟩ :=
    planTargets_bindings_run settings plain h rounds scopes resolved evaluated
  obtain ⟨new, nodup⟩ := boundNames_new settings span ts vs temps
  obtain ⟨agrees, holds⟩ := Frame.defineAll_holds length new nodup scopes
  obtain ⟨denotes, gives⟩ := held agrees holds
  have sources : ((planOperands span ts vs temps).1.map (·.1)).length =
      (planSources ts vs).length := by
    rw [List.length_map, length_planOperands, length_planSources]
  have stores := planPairs_stores_elements sources (planOperands span ts vs temps).2 suits denotes
    gives
  rw [Step.steps_append, Step.sequence_append_of_ok bind]
  exact plainPart_run stores rounds agrees written

end

-- Expressions as statements leave all variables of the frame alone.
theorem Step.frame_of_exprs {rounds : Nat} {ss : List Stmt} (exprs : ∀ s ∈ ss, ∃ e, s = .expr e)
    {flow : Flow} (run : sequence (steps p call rounds ss) f m = .ok (flow, f₁) m₁) : f₁ = f := by
  induction ss generalizing f m with
  | nil => exact (ok_pure.1 run).2.1.symm
  | cons s ss ih =>
    obtain ⟨e, rfl⟩ := exprs s (List.mem_cons_self ..)
    rw [steps, sequence, exec] at run
    obtain ⟨flow', f₂, m₂, first, run⟩ := ok_bind.1 run
    obtain ⟨_, f₃, m₃, evaluated, first⟩ := ok_bind.1 first
    obtain ⟨rfl, rfl, rfl⟩ := ok_pure.1 first
    obtain ⟨-, rfl⟩ := ok_reading.1 evaluated
    exact ih (fun s hs => exprs s (List.mem_cons_of_mem _ hs)) run

end

namespace RedirectContext

variable {σ : Type} [TypeOracle σ] {r : RedirectContext} {o : σ} {span : Span}
  {written values : List Expr} {temps temps' : Temporaries} {plan : AssignPlan}
  {ts : List Target} {vs : List TypedExpr} {p : Program} {call : CallHandler} {f f₁ : Frame}
  {m m₁ : Machine} {flow : Flow}

-- An assignment with fields and other targets is split.
theorem planAssign_mixed
    (accepted : r.planAssign o span written values temps = .ok (plan, temps'))
    (targets : r.targets o written = .ok ts) (sources : r.values o values = .ok vs)
    (fields : ts.any (·.isField) = true) (plain : ts.any (·.isPlain) = true) :
    planTargets r.settings span ts vs temps = (plan, temps') := by
  obtain ⟨ts', vs', ht, hv, planned⟩ := planned_of_ok accepted
  obtain rfl := Except.ok.inj (targets.symm.trans ht)
  obtain rfl := Except.ok.inj (sources.symm.trans hv)
  cases planned with
  | kept noField => exact absurd (noField.symm.trans fields) Bool.false_ne_true
  | single => exact absurd plain Bool.false_ne_true
  | split _ _ made => exact made

-- An assignment to fields and to elements of variables, of which only the last index may call. What
-- is emitted for it leaves in all variables and maps what the assignment leaves there, and calls of
-- mutators follow that leave the variables alone. Both run in one program: the assignment that is
-- compared is the one with its operands redirected, the fields among its targets ordinary ones.
theorem planAssign_stores_elements (rounds : Nat)
    (accepted : r.planAssign o span written values temps = .ok (plan, temps'))
    (targets : r.targets o written = .ok ts) (sources : r.values o values = .ok vs)
    (fields : ts.any (·.isField) = true) (plain : ts.any (·.isPlain) = true)
    (elements : StoresElements p call f temps.taken ts vs) (scopes : f.scopes ≠ [])
    (run : Step.assign p call (ts.map (Target.written span)) .assign (vs.map (·.expr)) f m =
      .ok (flow, f₁) m₁) :
    ∃ f₂ m₂, Step.sequence (Step.steps p call rounds (plan.bindings ++ plan.plain.toList)) f m =
        .ok (.next, f₂) m₂ ∧ f₁.Agrees temps.taken f₂ ∧ m₁.SameButObjects m₂ ∧
      ∀ flow f₃ m₃, Step.sequence (Step.steps p call rounds plan.statements) f m =
        .ok (flow, f₃) m₃ → f₃ = f₂ := by
  obtain ⟨ts', vs', ht, hv, formed⟩ := formed_planAssign accepted
  obtain rfl := Except.ok.inj (targets.symm.trans ht)
  obtain rfl := Except.ok.inj (sources.symm.trans hv)
  have exprs := fun s hs => (formed fields).mutator_cases (s := s) hs
  obtain ⟨f₂, m₂, run₂, agrees, same⟩ :=
    planTargets_run r.settings plain elements rounds scopes run
  rw [planAssign_mixed accepted targets sources fields plain] at run₂
  refine ⟨f₂, m₂, run₂, agrees, same, fun flow f₃ m₃ all => ?_⟩
  rw [AssignPlan.statements, Step.steps_append, Step.sequence_append_of_ok run₂] at all
  exact Step.frame_of_exprs exprs all

-- A method of counters.
def counterMethod (name : String) : FuncDecl where
  doc := none
  receiver := some ⟨"c", .pointer (.named "Counter")⟩
  name := name
  typeParams := []
  params := []
  results := [.int]
  body := .mk .nowhere []
  span := .nowhere

-- What the catalog of counters has on their field `value`.
def counterValue : FieldInfo where
  entity := "Counter"
  field := { name := "value", type := "int" }
  access := .proxied (.primitive "int" "GetInt")

-- In `xs[c.Zero()], c.value = 5, 7` the value 5 gets to the list.
theorem planAssign_stores_elements_counter :
    let catalog := (Catalog.build .counter .standard {}).value
    let r : RedirectContext := ⟨"F", ⟨catalog, ["Counter"]⟩, .standard⟩
    let o : TypeContext := ⟨catalog, ⟨[counterMethod "Zero"]⟩,
      [⟨"c", some (.pointer (.named "Counter"))⟩, ⟨"xs", some (.slice .int)⟩]⟩
    let c : Expr := .ident .nowhere "c"
    let index : Expr := .call .nowhere (.select .nowhere c "Zero") [] []
    let element : Expr := .index .nowhere (.ident .nowhere "xs") index
    let written : List Expr := [element, .select .nowhere c "value"]
    let values : List Expr := [.literal .nowhere (.int 5), .literal .nowhere (.int 7)]
    let p : Program := ⟨[.func (counterMethod "Zero"), .func (counterMethod "SetValue")]⟩
    let call : CallHandler := fun _ _ _ => pure [.int 0]
    let m : Machine := { objects := #[⟨"Counter", .empty⟩] }
    let f : Frame := ⟨[⟨[("c", .object 0), ("xs", .slice [.int 1])]⟩]⟩
    ∃ plan temps' f₂ m₂, r.planAssign o .nowhere written values ⟨["c", "xs"]⟩ = .ok (plan, temps') ∧
      Step.sequence (Step.steps p call 0 (plan.bindings ++ plan.plain.toList)) f m =
        .ok (.next, f₂) m₂ ∧
      f₂.get? "xs" = some (.slice [.int 5]) := by
  intro catalog r o c index element written values p call m f
  obtain ⟨⟨plan, temps'⟩, accepted⟩ := exists_ok
    (show (r.planAssign o .nowhere written values ⟨["c", "xs"]⟩).isOk = true by decide +kernel)
  let ts : List Target := [.plain element, .field c counterValue]
  let vs : List TypedExpr := [⟨.literal .nowhere (.int 5), some .untypedInt⟩,
    ⟨.literal .nowhere (.int 7), some .untypedInt⟩]
  have targets : r.targets o written = .ok ts := by with_unfolding_all rfl
  have sources : r.values o values = .ok vs := rfl
  have elements : StoresElements p call f ["c", "xs"] ts vs := by
    refine ⟨?_, ?_, ?_, .inl rfl⟩
    · refine List.forall_mem_cons.2 ⟨⟨fun e => ?_, fun e i hi free => ?_⟩,
        List.forall_mem_singleton.2 ⟨fun e => ?_, fun e => ?_⟩⟩
      · obtain rfl := Target.plain.inj e
        exact ⟨.item (.var (by decide)) rfl, by decide⟩
      · obtain rfl := Target.plain.inj e
        obtain rfl := List.mem_singleton.1 hi
        cases free
      · cases e
      · cases e
    · exact List.forall_mem_cons.2 ⟨List.nil_subset _,
        List.forall_mem_singleton.2 (List.nil_subset _)⟩
    · exact List.forall_mem_cons.2 ⟨fun _ => .literal, List.forall_mem_singleton.2 fun _ => .literal⟩
  have run : ∃ m₁, Step.assign p call (ts.map (Target.written .nowhere)) .assign
      (vs.map (·.expr)) f m = .ok (.next, f.assign "xs" (.slice [.int 5])) m₁ := ⟨_, rfl⟩
  obtain ⟨m₁, run⟩ := run
  obtain ⟨f₂, m₂, run₂, agrees, -⟩ := planAssign_stores_elements 0 accepted targets sources rfl rfl
    elements (List.cons_ne_nil _ _) run
  exact ⟨plan, temps', f₂, m₂, accepted, run₂, agrees "xs" (by decide)⟩

-- In `xs[c.Zero()][0], c.value = 5, 7` the call stands in an inner list. The inner list is bound
-- and not its index, the value 5 gets to the copy, and the list keeps its 1.
theorem nested_element_lost_counter :
    let catalog := (Catalog.build .counter .standard {}).value
    let r : RedirectContext := ⟨"F", ⟨catalog, ["Counter"]⟩, .standard⟩
    let o : TypeContext := ⟨catalog, ⟨[counterMethod "Zero"]⟩,
      [⟨"c", some (.pointer (.named "Counter"))⟩, ⟨"xs", some (.slice (.slice .int))⟩]⟩
    let c : Expr := .ident .nowhere "c"
    let inner : Expr := .index .nowhere (.ident .nowhere "xs")
      (.call .nowhere (.select .nowhere c "Zero") [] [])
    let zero : Expr := .literal .nowhere (.int 0)
    let written : List Expr := [.index .nowhere inner zero, .select .nowhere c "value"]
    let values : List Expr := [.literal .nowhere (.int 5), .literal .nowhere (.int 7)]
    let p : Program := ⟨[.func (counterMethod "Zero"), .func (counterMethod "SetValue")]⟩
    let call : CallHandler := fun _ _ _ => pure [.int 0]
    let m : Machine := { objects := #[⟨"Counter", .empty⟩] }
    let f : Frame := ⟨[⟨[("c", .object 0), ("xs", .slice [.slice [.int 1]])]⟩]⟩
    (∃ f₁ m₁, Step.assign p call written .assign values f m = .ok (.next, f₁) m₁ ∧
      f₁.get? "xs" = some (.slice [.slice [.int 5]])) ∧
    ∃ plan temps' f₂ m₂, r.planAssign o .nowhere written values ⟨["c", "xs"]⟩ = .ok (plan, temps') ∧
      plan.bindings = [.assign .nowhere [.ident .nowhere "xs2"] .define [inner]] ∧
      Step.sequence (Step.steps p call 0 plan.statements) f m = .ok (.next, f₂) m₂ ∧
      f₂.get? "xs" = some (.slice [.slice [.int 1]]) := by
  intro catalog r o c inner zero written values p call m f
  refine ⟨⟨_, _, rfl, rfl⟩, ?_⟩
  obtain ⟨⟨plan, temps'⟩, accepted⟩ := exists_ok
    (show (r.planAssign o .nowhere written values ⟨["c", "xs"]⟩).isOk = true by decide +kernel)
  let ts : List Target := [.plain (.index .nowhere inner zero), .field c counterValue]
  let vs : List TypedExpr := [⟨.literal .nowhere (.int 5), some .untypedInt⟩,
    ⟨.literal .nowhere (.int 7), some .untypedInt⟩]
  have targets : r.targets o written = .ok ts := by with_unfolding_all rfl
  have sources : r.values o values = .ok vs := rfl
  have made := planAssign_mixed accepted targets sources rfl rfl
  have name : (Temporaries.fresh inner.nameHint ⟨["c", "xs"]⟩).1 = "xs2" := by decide +kernel
  have mutator : counterValue.mutator = "SetValue" := by decide
  let split (name mutator : String) : AssignPlan := {
    bindings := [(⟨[name], [inner]⟩ : Captured)].filterMap (·.statement? .nowhere)
    plain := some (.assign .nowhere [.index .nowhere (.ident .nowhere name) zero] .assign
      [.literal .nowhere (.int 5)])
    readsBindings := true
    mutators := [.expr (.call .nowhere (.select .nowhere c mutator) []
      [.literal .nowhere (.int 7)])] }
  obtain rfl : split "xs2" "SetValue" = plan := by
    rw [← name, ← mutator]
    exact congrArg Prod.fst made
  exact ⟨_, temps', f.define "xs2" (.slice [.int 5]), _, accepted, rfl, rfl, rfl⟩

end RedirectContext

end FieldAccess
