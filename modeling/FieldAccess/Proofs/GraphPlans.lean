import FieldAccess.Proofs.GraphWrites

namespace FieldAccess

theorem Expr.HeldIn.mono {span : Span} {bound bound' : List (String × Expr)} {e e' : Expr}
    (h : e.HeldIn span bound e') (sub : bound ⊆ bound') : e.HeldIn span bound' e' := by
  cases h with
  | kept free => exact .kept free
  | temporary named mem => exact .temporary named (sub mem)

section

variable {s : Scene} {span : Span} {settings : Settings} {e : Expr} {v : Value}

variable (span) in
theorem captureOperand_held (yields : s.Yields e v) (temps : Temporaries) :
    let out := (captureOperand span e temps).1
    s.Captures out.2 ∧ e.HeldIn span out.2.pairs out.1 := by
  have named := ((captureOperand_draws span e).fresh temps _ (List.mem_singleton_self _)).2
  exact ⟨.single _ yields, .temporary named (List.mem_singleton_self _)⟩

variable (span) in
theorem captureTarget_held (yields : s.Yields e v) (info : FieldInfo) (temps : Temporaries) :
    let out := (captureTarget span [] false (.field e info) temps).1
    s.Captures out.2 ∧ ∃ e', out.1 = .field e' info ∧ e.HeldIn span out.2.pairs e' := by
  rw [captureTarget]
  split
  case isTrue stable => exact ⟨.none, e, rfl, .kept (Expr.isCallFree_of_isStable stable)⟩
  case isFalse =>
    obtain ⟨captures, held⟩ := captureOperand_held span yields temps
    exact ⟨captures, _, rfl, held⟩

variable (span) in
theorem captureValue_held {source : TypedExpr} (yields : s.Yields source.expr v) (hint : String)
    (temps : Temporaries) :
    let out := (captureValue span hint (some source) temps).1
    s.Captures out.2 ∧ source.expr.HeldIn span out.2.pairs out.1.expr := by
  intro out
  have fresh := (captureValue_draws span hint (some source)).fresh temps
  simp only [out, captureValue] at fresh ⊢
  split at fresh
  case isTrue constant =>
    rw [if_pos constant]
    exact ⟨.none, .kept (Bool.and_eq_true_iff.1 constant).2⟩
  case isFalse constant =>
    rw [if_neg constant]
    exact ⟨.single _ yields, .temporary (fresh _ (List.mem_singleton_self _)).2
      (List.mem_singleton_self _)⟩

-- What is planned for one target: its receiver and its value are captured, or they call nothing.
theorem Store.Sound.planned {w : Store} (sound : w.Sound s) (settings : Settings) (span : Span)
    (temps temps' : Temporaries) :
    let operand := (captureTarget span [] false w.target temps).1
    let part := (planTarget settings span false operand.1 (some w.source) temps').1
    s.Captures operand.2 ∧ s.Captures part.captured ∧
      ∀ bound, operand.2.pairs ⊆ bound → part.captured.pairs ⊆ bound →
        w.WrittenBy settings span bound part.mutator := by
  obtain ⟨aims, yields, -⟩ := sound
  obtain ⟨target, place, source, v⟩ := w
  cases aims with
  | blank =>
    refine ⟨.none, ?_, fun _ _ _ => .blank rfl⟩
    change s.Captures (discard (some source))
    rw [discard]
    split
    · exact .none
    · exact .single "_" yields
  | @field _ _ info _ _ _ _ yieldsBase =>
    obtain ⟨captures, receiver', same, heldBase⟩ := captureTarget_held span yieldsBase info temps
    obtain ⟨capturesValue, held⟩ := captureValue_held span yields info.name temps'
    dsimp only
    rw [same, planTarget_field]
    exact ⟨captures, capturesValue, fun bound sub sub' =>
      .field rfl (heldBase.mono sub) (held.mono sub')⟩

theorem Scene.Aims.isPlain {t : Target} {place : Place} (h : s.Aims t place) : t.isPlain = false := by
  cases h <;> rfl

theorem Scene.Aims.isField {t : Target} {place : Place} (h : s.Aims t place) :
    place = .blank ∨ place.isField = true := by
  cases h with
  | blank => exact .inl rfl
  | field => exact .inr rfl

theorem planPairs_stores (settings : Settings) {stores : List Store}
    {operands : List (Target × Captured)} (sound : ∀ w ∈ stores, w.Sound s)
    (captured : List.Forall₂ (fun w operand => ∃ temps,
      (captureTarget span [] false w.target temps).1 = operand) stores operands)
    (temps : Temporaries) :
    let parts := (planPairs settings span false
      ((operands.map (·.1)).zip (stores.map fun w => some w.source)) temps).1
    (∀ operand ∈ operands, s.Captures operand.2) ∧ (∀ part ∈ parts, s.Captures part.captured) ∧
      ∀ bound, (∀ operand ∈ operands, operand.2.pairs ⊆ bound) →
        (∀ part ∈ parts, part.captured.pairs ⊆ bound) →
        List.Forall₂ (fun w part => w.WrittenBy settings span bound part.mutator) stores parts := by
  induction captured generalizing temps with
  | nil => exact ⟨by simp, List.forall_mem_nil _, fun _ _ _ => .nil⟩
  | @cons w operand stores operands head _ ih =>
    obtain ⟨temps₀, rfl⟩ := head
    obtain ⟨soundHead, soundRest⟩ := List.forall_mem_cons.1 sound
    obtain ⟨first, second, written⟩ := soundHead.planned settings span temps₀ temps
    obtain ⟨firsts, seconds, rest⟩ := ih soundRest (planTarget settings span false
      (captureTarget span [] false w.target temps₀).1.1 (some w.source) temps).2
    simp only [List.map_cons, List.zip_cons_cons, planPairs_cons, List.forall_mem_cons]
    exact ⟨⟨first, firsts⟩, ⟨second, seconds⟩, fun bound sub sub' =>
      .cons (written bound sub.1 sub'.1) (rest bound sub.2 sub'.2)⟩

variable {f' : Frame} {m' : Machine} {rounds : Nat}

variable (rounds) in
-- Split into bindings and mutators, an assignment to fields stores what it stores on plain objects.
theorem Store.split_runs (served : s.types.catalog.ServedBy s.program s.call)
    (apart : s.types.catalog.KeysApart) (settings : Settings) (span : Span) {temps : Temporaries}
    {stores : List Store} (sound : ∀ w ∈ stores, w.Sound s) (covers : s.names ⊆ temps.taken)
    (locals : s.Local f' m') (matching : Matching s.types.catalog s.nodes s.machine m')
    (scopes : f'.scopes ≠ []) :
    ∃ f'₁ m'₁, Step.sequence (Step.steps s.program s.call rounds (planTargets settings span
        (stores.map (·.target)) (stores.map (·.source)) temps).1.statements) f' m' =
          .ok (.next, f'₁) m'₁ ∧ s.Local f'₁ m'₁ ∧
      Matching s.types.catalog s.nodes (Place.setFields (stores.map write) s.machine) m'₁ := by
  let ts := stores.map (·.target)
  let vs := stores.map (·.source)
  have fields : ∀ t ∈ ts, t.isPlain = false :=
    List.forall_mem_map.2 fun w hw => (sound w hw).aims.isPlain
  have noPlain : ts.any (·.isPlain) = false := by simpa using fields
  have paired : ts.length = vs.length := by simp [ts, vs]
  let operands := (planOperands span ts vs temps).1
  let parts := (planParts settings span ts vs temps).1
  have captured : List.Forall₂ (fun w operand => ∃ temps,
      (captureTarget span [] false w.target temps).1 = operand) stores operands := by
    simp only [operands, planOperands, planWritten_of_fields fields, noPlain, Bool.false_and]
    exact List.forall₂_map_left_iff.1 (forall₂_mapM _ ts temps)
  have sources : planSources ts vs = stores.map fun w => some w.source := by
    rw [planSources, if_pos paired, List.map_map]
    rfl
  obtain ⟨firsts, seconds, written⟩ :=
    planPairs_stores settings sound captured (planOperands span ts vs temps).2
  rw [← sources, ← Bool.false_and, ← noPlain, ← planParts_eq] at seconds written
  let first := operands.foldl (· ++ ·.2) ({} : Captured)
  let second := parts.foldl (· ++ ·.captured) ({} : Captured)
  have capturesFirst : s.Captures first := .foldl _ firsts .none
  have captures : s.Captures (first ++ second) := capturesFirst.append (.foldl _ seconds .none)
  have pairs : (first ++ second).pairs =
      operands.flatMap (·.2.pairs) ++ parts.flatMap (·.captured.pairs) := by
    rw [Captured.pairs_append capturesFirst.paired,
      (Captured.foldl_append_pairs _ (fun a ha => (firsts a ha).paired) rfl).2,
      (Captured.foldl_append_pairs _ (fun a ha => (seconds a ha).paired) rfl).2]
    rfl
  have written := written (first ++ second).pairs
    (fun a ha pair hp => pairs ▸ List.mem_append_left _ (List.mem_flatMap.2 ⟨a, ha, hp⟩))
    (fun a ha pair hp => pairs ▸ List.mem_append_right _ (List.mem_flatMap.2 ⟨a, ha, hp⟩))
  obtain ⟨-, fresh, nodup⟩ := planParts_draws settings span ts vs temps
  rw [← temps_captured, ← Captured.append_temps] at fresh nodup
  obtain ⟨f'₁, m'₁, bind, grows, locals, holds⟩ := captures.runs span rounds
    (fun x hx mem => (fresh x hx).1 (covers mem)) nodup locals matching scopes
  obtain ⟨m'₂, store, later, matching⟩ := mutators_run rounds served apart written sound
    locals holds (matching.grow grows)
  refine ⟨f'₁, m'₂, ?_, locals.later later, matching⟩
  have plain : plainStatement? span (parts.filterMap (·.plain)) = none :=
    @planTargets_plain settings span ts vs temps fields
  rw [planTargets_paired paired, plain, Option.toList_none, List.append_nil, Step.steps_append,
    Step.sequence_append_of_ok bind]
  exact store

theorem Place.resolveEach_blank {r : RedirectContext} {o : TypeContext} (p : Program)
    (call : CallHandler) (f : Frame) (m : Machine) {written : List Expr} {ts : List Target}
    (h : List.Forall₂ (fun e t => r.target o e = .ok t) written ts) (blank : ∀ t ∈ ts, t = .blank) :
    ts.zipWith (fun t e => t.place e) written = written ∧
      resolveEach p call f written m = .ok (written.map fun _ => .blank) m := by
  induction h with
  | nil => exact ⟨rfl, rfl⟩
  | @cons e t written ts head _ ih =>
    obtain ⟨rfl, rest⟩ := List.forall_mem_cons.1 blank
    obtain ⟨same, resolved⟩ := ih rest
    refine ⟨congrArg (e :: ·) same, ?_⟩
    have first : resolve p call f e m = .ok .blank m := by
      rw [resolve_unparen]
      have named := RedirectContext.ok_target_blank head
      cases he : e.unparen <;> rw [he] at named <;> cases named
      rfl
    exact Exec.ok_bind.2 ⟨_, m, first, Exec.ok_bind.2 ⟨_, m, resolved, rfl⟩⟩

-- Assignments to blank names store nothing.
theorem Store.setFields_blank {stores : List Store} (sound : ∀ w ∈ stores, w.Sound s)
    (blank : ∀ w ∈ stores, w.target = .blank) (m : Machine) :
    Place.setFields (stores.map write) m = m := by
  induction stores with
  | nil => rfl
  | cons w stores ih =>
    obtain ⟨soundHead, sound⟩ := List.forall_mem_cons.1 sound
    obtain ⟨blankHead, blank⟩ := List.forall_mem_cons.1 blank
    have aims := soundHead.aims
    rw [blankHead] at aims
    have place : w.place = .blank := by
      generalize w.place = place at aims
      cases aims
      rfl
    rw [List.map_cons, Place.setFields_cons, write, place]
    exact ih sound blank

section

variable (served : s.types.catalog.ServedBy s.program s.call) (apart : s.types.catalog.KeysApart)
  (locals : s.Local f' m') (matching : Matching s.types.catalog s.nodes s.machine m')

include served apart locals matching

variable (rounds settings span) in
-- A field alone is written at once.
theorem Store.single_runs {w : Store} (sound : w.Sound s) {receiver : Expr} {info : FieldInfo}
    (target : w.target = .field receiver info) :
    ∃ m'₁, Step.exec s.program s.call rounds (info.write settings receiver w.source span) f' m' =
        .ok (.next, f') m'₁ ∧ m'.Later m'₁ ∧
      Matching s.types.catalog s.nodes (Place.setFields [w.write] s.machine) m'₁ := by
  obtain ⟨aims, yields, fits⟩ := sound
  obtain ⟨_, place, source, v⟩ := w
  obtain rfl := target
  cases aims with
  | field k mem found field yieldsBase =>
    obtain ⟨has, set⟩ := fits rfl field
    obtain ⟨o', m'₁, base, grows, standsBase⟩ := yieldsBase.run locals matching
    obtain ⟨v', m'₂, value, grows', stands⟩ :=
      yields.run (locals.later grows.later) (matching.grow grows)
    obtain ⟨m'₃, run, later, matching⟩ := s.mutator_runs span settings rounds served
      apart mem found field has set
      ((matching.grow grows).grow grows') base (standsBase.later grows'.later) value stands
    exact ⟨m'₃, run, (grows.trans grows').later.trans later, matching⟩

variable (rounds) in
-- What an assignment to fields becomes stores what it stores on plain objects.
theorem Store.planned_runs {r : RedirectContext} {temps temps' : Temporaries} {stores : List Store}
    (sound : ∀ w ∈ stores, w.Sound s) (covers : s.names ⊆ temps.taken) (scopes : f'.scopes ≠ [])
    {written : List Expr} {p : AssignPlan}
    (targets : List.Forall₂ (fun e t => r.target s.types e = .ok t) written (stores.map (·.target)))
    (planned : RedirectContext.Planned r span written temps (stores.map (·.target))
      (stores.map (·.source)) p temps') :
    ∃ f'₁ m'₁, Step.sequence (Step.steps s.program s.call rounds p.statements) f' m' =
        .ok (.next, f'₁) m'₁ ∧ s.Local f'₁ m'₁ ∧
      Matching s.types.catalog s.nodes (Place.setFields (stores.map write) s.machine) m'₁ := by
  generalize ht : stores.map (·.target) = ts at targets planned
  generalize hv : stores.map (·.source) = vs at planned
  cases planned with
  | kept noField =>
    have blank : ∀ w ∈ stores, w.target = .blank := by
      intro w hw
      have isField := List.any_eq_false.1 noField w.target (ht ▸ List.mem_map_of_mem hw)
      have isPlain := (sound w hw).aims.isPlain
      cases ht : w.target <;> simp_all [Target.isField, Target.isPlain]
    subst ht hv
    obtain ⟨same, resolved⟩ :=
      Place.resolveEach_blank s.program s.call f' m' targets (List.forall_mem_map.2 blank)
    have yields : ∀ e ∈ (stores.map (·.source)).map (·.expr), ∃ v, s.Yields e v := by
      rw [List.map_map]
      exact List.forall_mem_map.2 fun w hw => ⟨w.value, (sound w hw).yields⟩
    obtain ⟨vs', m'₁, run, grows, _⟩ := Scene.all_yields yields locals matching
    refine ⟨f', m'₁, ?_, locals.later grows.later, ?_⟩
    · have paired : ((stores.map (·.source)).map (·.expr)).length = written.length := by
        rw [targets.length_eq, List.length_map, List.length_map, List.length_map]
      rw [same]
      change Step.sequence (Step.steps _ _ _ [_]) _ _ = _
      rw [Step.steps, Step.steps, Step.sequence_single, Step.exec]
      exact Step.ok_assign.2 ⟨_, m', vs', m'₁, resolved, (Exec.evalFor_paired paired).2 run,
        Step.writeAll_blanks written vs', rfl⟩
    · rw [setFields_blank sound blank]
      exact matching.grow grows
  | single checked =>
    obtain ⟨w, none, rfl, target, hnone⟩ := List.map_eq_cons_iff.1 ht
    obtain rfl := List.map_eq_nil_iff.1 hnone
    obtain rfl := List.cons.inj hv |>.1
    obtain ⟨m'₁, run, later, matching⟩ := single_runs span r.settings rounds served apart locals
      matching (sound w (by simp)) target
    refine ⟨f', m'₁, ?_, locals.later later, matching⟩
    change Step.sequence (Step.steps _ _ _ [_]) _ _ = _
    rw [Step.steps, Step.steps, Step.sequence_single]
    exact run
  | split _ _ plan =>
    subst ht hv
    have runs := split_runs rounds served apart r.settings span sound covers locals matching scopes
    rwa [plan] at runs

end

end

section

variable {r : RedirectContext} {span : Span} {ts : List Target} {vs : List TypedExpr}
  {receiver : Expr} {info : FieldInfo} {value : TypedExpr}
  (mem : (.field receiver info, value) ∈ ts.zip vs)

include mem

theorem RedirectContext.checkWrite_of_checkWrites (h : r.checkWrites span ts vs = .ok ()) :
    r.checkWrite info value.type span = .ok () := by
  induction ts generalizing vs with
  | nil => cases mem
  | cons t ts ih =>
    cases vs with
    | nil => cases mem
    | cons v vs =>
      rcases List.mem_cons.1 mem with same | later
      · obtain ⟨rfl, rfl⟩ := Prod.mk.inj same
        obtain ⟨_, first, _⟩ := ok_bind.1 h
        exact first
      · cases t with
        | field =>
          obtain ⟨_, _, rest⟩ := ok_bind.1 h
          exact ih later rest
        | plain | blank => exact ih later h

-- Every value for a field has been checked.
theorem RedirectContext.Planned.checked {written : List Expr} {temps temps' : Temporaries}
    {p : AssignPlan} (h : Planned r span written temps ts vs p temps')
    (paired : ts.length = vs.length) : r.checkWrite info value.type span = .ok () := by
  cases h with
  | kept noField => exact absurd rfl (List.any_eq_false.1 noField _ (List.of_mem_zip mem).1)
  | single checked =>
    cases List.mem_singleton.1 mem
    exact checked
  | split _ checked _ => exact checkWrite_of_checkWrites mem (checked paired)

end

section

variable {s : Scene} {r : RedirectContext} {p : Program} {call : CallHandler} {f' : Frame}
  {m₁ m₂ m' : Machine} (covers : r.Covers s.types s.names)
  (served : s.types.catalog.ServedBy s.program s.call) (locals : s.Local f' m')
  (matching : Matching s.types.catalog s.nodes s.machine m')

include covers served locals matching

theorem Scene.resolveEach_same {targets : List Expr} {ts : List Target}
    (htargets : List.Forall₂ (fun e t => r.target s.types e = .ok t) targets ts)
    (aims : ∀ e ∈ targets, e.FieldTarget s.types) (names : ∀ e ∈ targets, e.names ⊆ s.names)
    {places : List Place}
    (resolved : Place.resolveEach p call s.frame targets s.machine = .ok places m₁) :
    s.machine = m₁ := by
  induction htargets generalizing places with
  | nil => exact (Exec.ok_pure.1 resolved).2
  | @cons e t targets ts head _ ih =>
    obtain ⟨place, _, first, rest⟩ := Exec.ok_bind.1 resolved
    obtain ⟨places, _, resolvedRest, last⟩ := Exec.ok_bind.1 rest
    obtain ⟨rfl, _⟩ := (aims e (by simp)).aims covers served locals matching (names e (by simp)) head
      first
    obtain ⟨_, rfl⟩ := Exec.ok_pure.1 last
    exact ih (fun e he => aims e (by simp [he])) (fun e he => names e (by simp [he])) resolvedRest

-- What an assignment stores on plain objects.
theorem Scene.exists_stores {targets values : List Expr} {ts : List Target} {vs : List TypedExpr}
    (htargets : List.Forall₂ (fun e t => r.target s.types e = .ok t) targets ts)
    (hvalues : List.Forall₂ (fun e t => r.value s.types e = .ok t) values vs)
    (paired : targets.length = values.length) (aims : ∀ e ∈ targets, e.FieldTarget s.types)
    (operands : ∀ e ∈ values, ∃ k, e.Operand s.types k)
    (names : ∀ e ∈ targets ++ values, e.names ⊆ s.names) {places : List Place} {vals : List Value}
    (resolved : Place.resolveEach p call s.frame targets s.machine = .ok places m₁)
    (evaluated : Exec.all (Exec.actions p call s.frame values) s.machine = .ok vals m₂) {span : Span}
    (checked : ∀ receiver info value, (.field receiver info, value) ∈ ts.zip vs →
      r.checkWrite info value.type span = .ok ())
    (set : ∀ pair ∈ targets.zip values,
      Exec.eval p call s.frame pair.2 s.machine = .ok .nil s.machine →
        pair.1.unparen.ident? = some "_") :
    s.machine = m₂ ∧ ∃ stores : List Store, stores.map (·.target) = ts ∧
      stores.map (·.source) = vs ∧ stores.map Store.write = places.zip vals ∧
      ∀ w ∈ stores, w.Sound s := by
  induction htargets generalizing values vs places vals with
  | nil =>
    obtain rfl := List.length_eq_zero_iff.1 paired.symm
    cases hvalues
    obtain ⟨rfl, _⟩ := Exec.ok_pure.1 resolved
    obtain ⟨rfl, same⟩ := Exec.ok_pure.1 evaluated
    exact ⟨same, [], rfl, rfl, rfl, by simp⟩
  | @cons target t targets ts head _ ih =>
    cases hvalues with
    | nil => cases paired
    | @cons e v values vs value hvalues =>
      obtain ⟨place, _, first, rest⟩ := Exec.ok_bind.1 resolved
      obtain ⟨places, _, resolvedRest, last⟩ := Exec.ok_bind.1 rest
      obtain ⟨rfl, rfl⟩ := Exec.ok_pure.1 last
      obtain ⟨a, _, ha, rest⟩ := Exec.ok_bind.1 evaluated
      obtain ⟨vals, _, evaluatedRest, last⟩ := Exec.ok_bind.1 rest
      obtain ⟨rfl, rfl⟩ := Exec.ok_pure.1 last
      obtain ⟨rfl, aim⟩ := (aims target (by simp)).aims covers served locals matching
        (names target (by simp)) head first
      obtain ⟨k, operand⟩ := operands e (by simp)
      obtain ⟨rfl, has, yields⟩ := operand.yields covers served locals matching (names e (by simp))
        value ha
      obtain ⟨same, stores, rfl, rfl, writes, sound⟩ := ih hvalues (Nat.succ.inj paired)
        (fun e he => aims e (by simp [he])) (fun e he => operands e (by simp [he]))
        (fun e he => names e (by simp at he ⊢; tauto)) resolvedRest evaluatedRest
        (fun receiver info value mem => checked receiver info value (by simp [mem]))
        (fun pair mem => set pair (by simp [mem]))
      refine ⟨same, ⟨t, place, v, a⟩ :: stores, rfl, rfl, ?_, List.forall_mem_cons.2 ⟨?_, sound⟩⟩
      · rw [List.map_cons, writes]
        rfl
      refine ⟨aim, yields, fun {k' receiver info} is field => ?_⟩
      obtain rfl : t = .field receiver info := is
      refine ⟨?_, ?_⟩
      · have typed : k.Typed v.type := by
          rw [RedirectContext.value_type covers.catalog e v value]
          exact operand.typed
        obtain rfl := field.kind_of_checkWrite typed (checked receiver info v (List.mem_cons_self ..))
        exact has
      · rintro rfl
        cases RedirectContext.target_of_blank head (set (target, e) (by simp) ha)

end

end FieldAccess
