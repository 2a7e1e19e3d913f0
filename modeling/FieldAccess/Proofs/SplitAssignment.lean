import FieldAccess.Proofs.AssignRuns
import FieldAccess.Proofs.PlanParts

namespace FieldAccess

-- A value that stays in the call of a mutator, since it is taken for a constant, reads no variable
-- that has been assigned by then.
def Settled (early : List String) (e : Expr) (p : Target × TypedExpr) : Prop :=
  p.1.isField = true → p.2.isConstant = true → ∀ x ∈ e.names, x ∉ early

section

variable {r : RedirectContext} {c : TypeContext} {u : Usage} {S : Sides} {N : List String}
  {f f' : Frame} {m m₁ m' : Machine} {call : CallHandler} {maps : List (Nat × Nat)}
  {written early : List String}

-- The shares of targets and values that were resolved and evaluated one after the other.
theorem exists_shares (sound : S.Sound) (agrees : u.Agrees r c (S.view N f f' m₁))
    (ready : (S.view N f f' m₁).Ready maps m') (below : Below maps m.maps.size)
    {es : List Expr} {vs : List TypedExpr} {jobs : List Job}
    (hvalues : List.Forall₂ (fun e t => r.value c e = .ok t) es vs)
    (done : List.Forall₂ (fun e j => Job.DoneBy j S.source call f m m₁ e) es jobs)
    (fits : ∀ e ∈ es, e.Fits u) (names : ∀ e ∈ es, e.names ⊆ N)
    {ts : List Target} {places : List Place}
    (settled : List.Forall₂ (Settled early) es (ts.zip vs))
    (denotes : List.Forall₂ (Denotes S N f' m') ts places)
    (assigned : ∀ t ∈ ts, ∀ span x, t = .plain (.ident span x) → x ∈ written)
    (paired : ts.length = vs.length) :
    ∃ shares : List Share, shares.map (·.target) = ts ∧ shares.map (·.place) = places ∧
      shares.map (·.value) = vs ∧ shares.map (·.job) = jobs ∧
      ∀ s ∈ shares, s.Given S N m₁ f written early maps f' m' := by
  induction denotes generalizing es vs jobs with
  | nil =>
    obtain rfl : vs = [] := List.length_eq_zero_iff.1 paired.symm
    cases hvalues
    cases done
    exact ⟨[], rfl, rfl, rfl, rfl, by simp⟩
  | @cons t place ts places head tail ih =>
    cases hvalues with
    | nil => simp at paired
    | @cons e v es vs value hvalues =>
      cases done with
      | @cons _ j _ jobs did done =>
        obtain ⟨settledFirst, settledRest⟩ := List.forall₂_cons.1 settled
        obtain ⟨shares, rfl, rfl, rfl, rfl, given⟩ := ih hvalues done
          (fun e he => fits e (by simp [he])) (fun e he => names e (by simp [he])) settledRest
          (fun t ht => assigned t (by simp [ht])) (by simpa using paired)
        refine ⟨⟨t, place, v, e.names, j⟩ :: shares, rfl, rfl, rfl, rfl, ?_⟩
        refine List.forall_mem_cons.2 ⟨?_, given⟩
        have fits := fits e (by simp)
        have names := names e (by simp)
        exact {
          denotes := head
          assigned := assigned t (by simp)
          due := did.due sound agrees below ready value fits names
          names := names
          deferred := did.deferred sound agrees below value fits
          settled := settledFirst }

-- What shares become, one after the other.
theorem exists_boundParts (settings : Settings) (span : Span) {shares : List Share}
    {operands : List (Target × Captured)} {places inPlace : Bool} (sound : S.Sound)
    (given : ∀ s ∈ shares, s.Given S N m₁ f written early maps f' m')
    (counted : written ⊆ N) (before : early ⊆ written) (other : ∀ y ∈ written, S.receiver ≠ some y)
    (free : inPlace = true → ∀ s ∈ shares, s.value.expr.isCallFree = true)
    (captured : List.Forall₂ (fun t operand => ∃ temps,
      (captureTarget span written places t temps).1 = operand) (shares.map (·.target)) operands)
    (temps : Temporaries) :
    ∃ bs : List BoundPart, bs.map (·.share) = shares ∧ bs.map (·.operand) = operands ∧
      bs.map (·.plan) = (planPairs settings span inPlace
        ((operands.map (·.1)).zip ((shares.map (·.value)).map some)) temps).1 ∧
      ∀ b ∈ bs, b.toPart.Bound S N m₁ f written early maps f' m' b.first b.second := by
  induction shares generalizing operands temps with
  | nil =>
    cases captured
    exact ⟨[], rfl, rfl, rfl, by simp⟩
  | cons s shares ih =>
    cases captured with
    | @cons _ operand _ operands head tail =>
      obtain ⟨temps₀, rfl⟩ := head
      let operand := (captureTarget span written places s.target temps₀).1
      let planned := planTarget settings span inPlace operand.1 (some s.value) temps
      obtain ⟨first, second, bound⟩ := (given s (by simp)).bound sound counted before other
        (fun h => free h s (by simp)) settings span places temps₀ temps
      obtain ⟨bs, rfl, rfl, plans, bounds⟩ := ih (fun s hs => given s (by simp [hs]))
        (fun h s hs => free h s (by simp [hs])) tail planned.2
      refine ⟨⟨⟨s, operand, planned.1⟩, first, second⟩ :: bs, rfl, rfl, ?_,
        List.forall_mem_cons.2 ⟨bound, bounds⟩⟩
      simp only [List.map_cons, List.zip_cons_cons, planPairs_cons, plans]
      rfl

-- What the plan of an assignment makes of its shares.
theorem exists_planParts (settings : Settings) (span : Span) (temps : Temporaries)
    {shares : List Share} (sound : S.Sound) {ts : List Target} {vs : List TypedExpr}
    (given : ∀ s ∈ shares, s.Given S N m₁ f (planWritten ts) (planWritten ts) maps f' m')
    (counted : planWritten ts ⊆ N) (other : ∀ y ∈ planWritten ts, S.receiver ≠ some y)
    (targets : shares.map (·.target) = ts) (values : shares.map (·.value) = vs)
    (paired : ts.length = vs.length) :
    ∃ bs : List BoundPart, bs.map (·.share) = shares ∧
      bs.map (·.operand) = (planOperands span ts vs temps).1 ∧
      bs.map (·.plan) = (planParts settings span ts vs temps).1 ∧
      ∀ b ∈ bs, b.toPart.Bound S N m₁ f (planWritten ts) (planWritten ts) maps f' m' b.first
        b.second := by
  have free : (ts.any (·.isPlain) && planCallFree ts vs) = true →
      ∀ s ∈ shares, s.value.expr.isCallFree = true := by
    intro h s hs
    simp only [planCallFree, Bool.and_eq_true, ← values, List.all_map, List.all_eq_true] at h
    exact h.2.1.2 s hs
  have captured : List.Forall₂ (fun t operand => ∃ temps,
      (captureTarget span (planWritten ts) (ts.any (·.isPlain) && !planCallFree ts vs) t temps).1 =
        operand) (shares.map (·.target)) (planOperands span ts vs temps).1 := by
    rw [targets]
    exact forall₂_mapM _ ts temps
  obtain ⟨bs, rfl, operands, plans, bound⟩ := exists_boundParts settings span sound given counted
    (List.Subset.refl _) other free captured (planOperands span ts vs temps).2
  refine ⟨bs, rfl, operands, ?_, bound⟩
  rw [values] at plans
  rw [planParts_eq, planSources, if_pos paired]
  exact plans

end

namespace BoundPart

variable {bs : List BoundPart}

theorem captured_bindings
    (bound : ∀ b ∈ bs,
      b.operand.2 = Binding.captured b.first ∧ b.plan.captured = Binding.captured b.second) :
    (bs.map (·.operand)).foldl (· ++ ·.2) {} ++ (bs.map (·.plan)).foldl (· ++ ·.captured) {} =
      Binding.captured (bindings bs) := by
  have first {α : Type} (g : Captured → List α) : (bs.map (·.operand)).flatMap (fun o => g o.2) =
      bs.flatMap fun b => g (Binding.captured b.first) := by
    rw [List.flatMap_map]
    exact List.flatMap_congr fun b hb => by rw [(bound b hb).1]
  have second {α : Type} (g : Captured → List α) :
      (bs.map (·.plan)).flatMap (fun plan => g plan.captured) =
        bs.flatMap fun b => g (Binding.captured b.second) := by
    rw [List.flatMap_map]
    exact List.flatMap_congr fun b hb => by rw [(bound b hb).2]
  rw [Captured.foldl_append, Captured.foldl_append, first, first, second, second]
  change (Captured.mk _ _ : Captured) = ⟨_, _⟩
  simp [bindings, Binding.captured, List.map_flatMap]

-- What is bound has names of its own, as far as it is not discarded.
theorem fresh_of_draws {N taken temps : List String}
    (drawn : (Binding.captured (bindings bs)).temps = temps)
    (new : ∀ x ∈ temps, x ∉ taken ∧ x ≠ "_") (nodup : temps.Nodup) (covers : N ⊆ taken) :
    Fresh N bs := by
  refine ⟨fun b hb => ?_, ?_⟩
  · by_cases blank : b.name = "_"
    · exact .inr blank
    · have mem : b.name ∈ (Binding.captured (bindings bs)).temps :=
        List.mem_filter.2 ⟨List.mem_map_of_mem hb, by simpa using blank⟩
      exact .inl fun h => (new _ (drawn ▸ mem)).1 (covers h)
  · rw [← drawn] at nodup
    exact nodup

end BoundPart

theorem Denotes.written {S : Sides} {N : List String} {f' : Frame} {m' : Machine} {ts : List Target}
    {places : List Place} (h : List.Forall₂ (Denotes S N f' m') ts places) :
    ∀ x ∈ planWritten ts, x ∈ N ∧ S.receiver ≠ some x := by
  induction h with
  | nil => simp [planWritten]
  | cons head _ ih =>
    intro x hx
    cases head with
    | blank | field => exact ih x hx
    | named mem _ other =>
      rcases List.mem_cons.1 hx with rfl | hx
      · exact ⟨mem, other⟩
      · exact ih x hx

theorem planTargets_paired {settings : Settings} {span : Span} {ts : List Target}
    {vs : List TypedExpr} {s : Temporaries} (paired : ts.length = vs.length) :
    (planTargets settings span ts vs s).1.statements =
      (((planOperands span ts vs s).1.foldl (· ++ ·.2) {} ++
        (planParts settings span ts vs s).1.foldl (· ++ ·.captured) {} : Captured).statement?
          span).toList ++
      (plainStatement? span ((planParts settings span ts vs s).1.filterMap (·.plain))).toList ++
      (planParts settings span ts vs s).1.filterMap (·.mutator) := by
  rw [planTargets_eq]
  simp only [AssignPlan.statements, planBindings, if_pos paired]
  generalize (_ ++ _ : Captured) = c
  cases h : c.statement? span <;> simp [h]

section

variable {r : RedirectContext} {c : TypeContext} {u : Usage} {S : Sides} {N : List String}
  {f fs fs₁ f' : Frame} {m m₁ m₂ m' : Machine} {call : CallHandler} {maps : List (Nat × Nat)}

-- With a value for each target, the plan writes what the assignment writes.
theorem Step.paired_runs (rounds : Nat) (settings : Settings) (span : Span) {temps : Temporaries}
    (sound : S.Sound) (agrees : u.Agrees r c (S.view N f f' m₁))
    (ready : (S.view N f f' m₁).Ready maps m') (below : Below maps m.maps.size)
    {es : List Expr} {vs : List TypedExpr} {jobs : List Job}
    (hvalues : List.Forall₂ (fun e t => r.value c e = .ok t) es vs)
    (done : List.Forall₂ (fun e j => Job.DoneBy j S.source call f m m₁ e) es jobs)
    (ordered : jobs.Pairwise fun j k => j.stop ≤ k.start)
    (fits : ∀ e ∈ es, e.Fits u) (names : ∀ e ∈ es, e.names ⊆ N)
    {ts : List Target} {places : List Place}
    (denotes : List.Forall₂ (Denotes S N f' m') ts places) (paired : ts.length = vs.length)
    (settled : List.Forall₂ (Settled (planWritten ts)) es (ts.zip vs)) (covers : N ⊆ temps.taken)
    (states : States S N maps fs m₁ f' m') (scopes : f'.scopes ≠ []) {x : Unit}
    (run : Place.writePairs (places.zip (jobs.map (·.value))) fs m₁ = .ok (x, fs₁) m₂) :
    ∃ maps₁ f'₁ m'₁, maps ⊆ maps₁ ∧
      Step.sequence (Step.steps S.target S.call rounds
        (planTargets settings span ts vs temps).1.statements) f' m' = .ok (.next, f'₁) m'₁ ∧
      States S N maps₁ fs₁ m₂ f'₁ m'₁ := by
  have counted : planWritten ts ⊆ N := fun x hx => (Denotes.written denotes x hx).1
  have assigned : ∀ t ∈ ts, ∀ span x, t = .plain (.ident span x) → x ∈ planWritten ts := by
    rintro t ht span x rfl
    exact List.mem_filterMap.2 ⟨_, ht, rfl⟩
  obtain ⟨shares, targets, hplaces, values, hjobs, given⟩ := exists_shares sound agrees ready below
    hvalues done fits names settled denotes assigned paired
  obtain ⟨bs, rfl, operands, plans, bound⟩ := exists_planParts settings span temps sound given counted
    (fun y hy => (Denotes.written denotes y hy).2) targets values paired
  obtain ⟨-, new, nodup⟩ := planParts_draws settings span ts vs temps
  have captured : ∀ b ∈ bs, b.operand.2 = Binding.captured b.first ∧
      b.plan.captured = Binding.captured b.second := fun b hb =>
        ⟨(bound b hb).operand, (bound b hb).value⟩
  have jobs' : bs.map (·.share.job) = jobs := by rw [← hjobs, List.map_map]; rfl
  have writes : bs.map BoundPart.write = places.zip (jobs.map (·.value)) := by
    rw [← hplaces, ← hjobs]
    simp only [List.map_map]
    exact (List.zip_map' ..).symm
  have apart : (bs.map (·.share.job)).Pairwise Job.Apart := jobs' ▸ ordered.imp .inl
  have avoids : ∀ b ∈ bs, b.share.job.Avoids maps := by
    intro b hb
    have mem : b.share.job ∈ jobs := jobs' ▸ List.mem_map_of_mem hb
    obtain ⟨e, _, did⟩ := exists_rel_of_mem_right done mem
    exact did.avoids below
  have drawn :
      (Binding.captured (BoundPart.bindings bs)).temps = planTemps settings span ts vs temps := by
    rw [← BoundPart.captured_bindings captured, operands, plans, Captured.append_temps, temps_captured]
  rw [planTargets_paired paired, ← operands, ← plans, BoundPart.captured_bindings captured,
    List.filterMap_map, List.filterMap_map]
  exact BoundPart.statements_run sound (List.Subset.refl _) counted
    (BoundPart.fresh_of_draws drawn new nodup covers) apart avoids ready scopes bound states
    (writes ▸ run)

theorem planWritten_of_fields {ts : List Target} (fields : ∀ t ∈ ts, t.isPlain = false) :
    planWritten ts = [] := by
  refine List.filterMap_eq_nil_iff.2 fun t ht => ?_
  cases t with
  | plain => cases fields _ ht
  | _ => rfl

-- Targets without variables among them leave their operands where they are.
theorem captureTargets_of_fields {ts : List Target} {places : List Place} {span : Span}
    {capture : Bool} {temps : Temporaries} (denotes : List.Forall₂ (Denotes S N f' m') ts places)
    (fields : ∀ t ∈ ts, t.isPlain = false) :
    ts.mapM (captureTarget span [] capture) temps = (ts.map fun t => (t, {}), temps) := by
  induction denotes with
  | nil => rfl
  | @cons t place ts places head tail ih =>
    have kept : captureTarget span [] capture t temps = ((t, {}), temps) := by
      cases head with
      | blank => rfl
      | named => cases fields _ (List.mem_cons_self ..)
      | field _ _ hy =>
        rw [captureTarget, if_pos ((Expr.isStable_iff hy).2 (by simp))]
        rfl
    rw [List.mapM_cons]
    simp only [bind, StateT.bind, kept, ih fun t ht => fields t (by simp [ht])]
    rfl

-- What is left for targets whose values are all held in temporaries.
theorem exists_heldSlots {settings : Settings} {span : Span} {temps : Temporaries} {ts : List Target}
    {places : List Place} (sound : S.Sound) (denotes : List.Forall₂ (Denotes S N f' m') ts places)
    (fields : ∀ t ∈ ts, t.isPlain = false) {values values' : List Value}
    (alike : List.Forall₂ (Value.Alike S.loose maps) values values')
    (le : ts.length ≤ values.length) :
    ∃ slots : List Slot,
      slots.map (·.plan) =
        (planPairs settings span false (ts.zip (ts.map fun _ => none)) temps).1 ∧
      slots.map Slot.write = places.zip values ∧
      (∀ s ∈ slots, ∃ v, s.job = .ofRead v) ∧
      (slots.flatMap (·.plan.captured.names)).length = ts.length ∧
      ∀ s ∈ slots, ∃ x v', (x, v') ∈ (slots.flatMap (·.plan.captured.names)).zip values' ∧
        ∀ {f'₁ m'₁}, (∀ y ∈ N, f'₁.var? m'₁ y = f'.var? m' y) →
          (x ≠ "_" → x ∉ N ∧ f'₁.get? x = some v') →
          s.Pending S N m₁ f [] [] maps f'₁ m'₁ := by
  induction denotes generalizing temps values values' with
  | nil => exact ⟨[], rfl, rfl, by simp, rfl, by simp⟩
  | @cons t place ts places head tail ih =>
    cases alike with
    | nil => simp at le
    | @cons v v' values values' hv alike =>
      obtain ⟨slots, plans, writes, held, count, pending⟩ :=
        @ih (planTarget settings span false t none temps).2 (fun t ht => fields t (by simp [ht])) _ _
          alike (by simpa using le)
      have rest {x : String} {p : TargetPlan} (names : p.captured.names = [x]) :
          ∀ s ∈ slots, ∃ y w', (y, w') ∈ ((⟨place, .ofRead v, p⟩ :: slots : List Slot).flatMap
              (·.plan.captured.names)).zip (v' :: values') ∧
            ∀ {f'₁ m'₁}, (∀ y ∈ N, f'₁.var? m'₁ y = f'.var? m' y) →
              (y ≠ "_" → y ∉ N ∧ f'₁.get? y = some w') →
              s.Pending S N m₁ f [] [] maps f'₁ m'₁ := by
        intro s hs
        obtain ⟨y, w', mem, pending⟩ := pending s hs
        exact ⟨y, w', by simp [names, mem], pending⟩
      cases head with
      | named => cases fields _ (List.mem_cons_self ..)
      | blank =>
        refine ⟨⟨.blank, .ofRead v, ⟨⟨["_"], []⟩, none, none⟩⟩ :: slots, ?_, ?_, ?_,
          by simpa using count, ?_⟩
        · rw [List.map_cons, plans, List.map_cons, List.zip_cons_cons, planPairs_cons]
          rfl
        · rw [List.map_cons, writes]
          rfl
        · exact List.forall_mem_cons.2 ⟨⟨v, rfl⟩, held⟩
        · refine List.forall_mem_cons.2 ⟨⟨"_", v', by simp, fun _ _ => .done⟩, rest rfl⟩
      | @field receiver info t name y k seen stores hy mem var =>
        let x := Naming.unique (Naming.localVariable info.name) temps.taken
        refine ⟨⟨.field t.object name, .ofRead v, ⟨⟨[x], []⟩, none,
          some (info.write settings receiver ⟨.ident span x, none⟩ span)⟩⟩ :: slots, ?_, ?_, ?_,
          by simpa using count, ?_⟩
        · rw [List.map_cons, plans, List.map_cons, List.zip_cons_cons, planPairs_cons]
          rfl
        · rw [List.map_cons, writes]
          rfl
        · exact List.forall_mem_cons.2 ⟨⟨v, rfl⟩, held⟩
        · refine List.forall_mem_cons.2 ⟨⟨x, v', by simp, fun same held => ?_⟩, rest rfl⟩
          obtain ⟨fresh, get⟩ :=
            held (Naming.unique_ne_blank (Naming.localVariable_ne_blank info.name) _)
          exact .field (sound.seen_subset _ seen) stores hy (by simp) ((same y mem).trans var)
            (.held fresh get hv)

-- If not each target has its own value, all of them go through temporaries.
theorem planTargets_unpaired {settings : Settings} {span : Span} {temps : Temporaries}
    {ts : List Target} {places : List Place} {vs : List TypedExpr}
    (denotes : List.Forall₂ (Denotes S N f' m') ts places)
    (fields : ∀ t ∈ ts, t.isPlain = false) (unpaired : ts.length ≠ vs.length) :
    (planParts settings span ts vs temps).1 =
        (planPairs settings span false (ts.zip (ts.map fun _ => none)) temps).1 ∧
      (planTargets settings span ts vs temps).1.statements =
        ((⟨(planParts settings span ts vs temps).1.flatMap (·.captured.names), vs.map (·.expr)⟩ :
            Captured).statement? span).toList ++
          ((plainStatement? span ((planParts settings span ts vs temps).1.filterMap (·.plain))).toList
            ++ (planParts settings span ts vs temps).1.filterMap (·.mutator)) := by
  have operands : planOperands span ts vs temps = (ts.map fun t => (t, {}), temps) := by
    rw [planOperands, planWritten_of_fields fields]
    exact captureTargets_of_fields denotes fields
  have noPlain : ts.any (·.isPlain) = false := by simpa using fields
  have same : (ts.map fun t => (t, ({} : Captured))).map (·.1) = ts := by
    simp [Function.comp_def]
  constructor
  · rw [planParts_eq, operands, noPlain, planSources, if_neg unpaired]
    simp only [same, Bool.false_and]
  · have first : (ts.map fun t => (t, ({} : Captured))).foldl (· ++ ·.2) ({} : Captured) = {} := by
      rw [Captured.foldl_append]
      simp
    have names := Captured.foldl_append_names (·.captured) (planParts settings span ts vs temps).1 {}
    rw [planTargets_eq]
    simp only [AssignPlan.statements, planBindings, if_neg unpaired, operands, first, names,
      List.nil_append, List.append_assoc]
    congr 1

-- Without a value for each target, the plan writes what one value, or the first ones, give.
theorem Step.unpaired_runs (rounds : Nat) (settings : Settings) (span : Span) {temps : Temporaries}
    (sound : S.Sound) (agrees : u.Agrees r c (S.view N f f' m₁))
    (ready : (S.view N f f' m₁).Ready maps m') {mid : Machine} (below : Below maps mid.maps.size)
    {es : List Expr} {vs : List TypedExpr}
    (hvalues : List.Forall₂ (fun e t => r.value c e = .ok t) es vs) (fits : ∀ e ∈ es, e.Fits u)
    (names : ∀ e ∈ es, e.names ⊆ N) {ts : List Target} {places : List Place}
    (denotes : List.Forall₂ (Denotes S N f' m') ts places) (fields : ∀ t ∈ ts, t.isPlain = false)
    (unpaired : ts.length ≠ vs.length) (covers : N ⊆ temps.taken)
    (states : States S N maps fs m₁ f' m') (scopes : f'.scopes ≠ []) {values : List Value}
    (evaluated : Exec.evalFor S.source call f ts.length es mid = .ok values m₁)
    (le : ts.length ≤ values.length) {x : Unit}
    (run : Place.writePairs (places.zip values) fs m₁ = .ok (x, fs₁) m₂) :
    ∃ maps₁ f'₁ m'₁, maps ⊆ maps₁ ∧
      Step.sequence (Step.steps S.target S.call rounds
        (planTargets settings span ts vs temps).1.statements) f' m' = .ok (.next, f'₁) m'₁ ∧
      States S N maps₁ fs₁ m₂ f'₁ m'₁ := by
  have draws := planParts_draws settings span ts vs temps
  obtain ⟨parts, statements⟩ :=
    @planTargets_unpaired _ _ _ _ settings span temps _ _ vs denotes fields unpaired
  rw [statements]
  have mimics : Exec.Mimics (S.view N f f' m₁) maps (Exec.evalFor S.source call f ts.length es)
      (Exec.evalFor S.target S.call f' ts.length (vs.map (·.expr)))
      fun maps => List.Forall₂ ((S.view N f f' m₁).Alike maps) :=
    Exec.evalFor_mimics sound agrees _ hvalues fits names (.inl rfl)
  obtain ⟨values', m'₁, ext, run', grows, _, tables, alike⟩ :=
    mimics.run evaluated (.refl _) (List.Subset.refl _) below ready
  have sub := List.subset_append_right ext maps
  obtain ⟨slots, plans, writes, held, count, pending⟩ :=
    @exists_heldSlots _ _ f _ m₁ _ _ settings span temps _ _ sound denotes fields _ _ alike le
  have captured : (planParts settings span ts vs temps).1.flatMap (·.captured.names) =
      slots.flatMap (·.plan.captured.names) := by
    rw [parts, ← plans, List.flatMap_map]
  have plain : (planParts settings span ts vs temps).1.filterMap (·.plain) =
      slots.filterMap (·.plan.plain) := by
    rw [parts, ← plans, List.filterMap_map]
    rfl
  have mutators : (planParts settings span ts vs temps).1.filterMap (·.mutator) =
      slots.filterMap (·.plan.mutator) := by
    rw [parts, ← plans, List.filterMap_map]
    rfl
  rw [captured, plain, mutators]
  let temporaries := slots.flatMap (·.plan.captured.names)
  have bind : Step.sequence (Step.steps S.target S.call rounds
      ((⟨temporaries, vs.map (·.expr)⟩ : Captured).statement? span).toList) f' m' =
        .ok (.next, f'.defineAll (temporaries.zip values')) m'₁ := by
    refine Step.captured_runs ?_
    rwa [count]
  have drawn : temporaries.filter (· ≠ "_") =
      (planParts settings span ts vs temps).1.flatMap (·.captured.temps) := by
    rw [show temporaries = _ from captured.symm,
      List.filter_flatMap (g := fun p : TargetPlan => p.captured.names)]
    rfl
  have fresh : ∀ y ∈ temporaries, y ≠ "_" → y ∉ N := by
    intro y hy named h
    have mem : y ∈ temporaries.filter (· ≠ "_") := List.mem_filter.2 ⟨hy, by simpa using named⟩
    rw [drawn] at mem
    exact (draws.2.1 y (List.mem_append_right _ mem)).1 (covers h)
  have nodup : (temporaries.filter (· ≠ "_")).Nodup := by
    rw [drawn]
    exact (List.nodup_append.1 draws.2.2).2.1
  have extends₁ : f'.Extends N (f'.defineAll (temporaries.zip values')) := by
    refine .of_entries fun e he => ?_
    by_cases blank : e.1 = "_"
    · exact .inr blank
    · exact .inl (fresh e.1 (List.of_mem_zip he).1 blank)
  obtain ⟨_, same⟩ := ready.unread extends₁ (List.Subset.refl _) scopes grows
  have names_le : temporaries.length ≤ values'.length := by
    rw [count, ← alike.length_eq]
    exact le
  have states₁ : States S N (ext ++ maps) fs m₁ (f'.defineAll (temporaries.zip values')) m'₁ :=
    ⟨states.toMachines.mono sub (.refl _) grows tables,
      extends₁.scopesAlike (states.scopes.mono sub)⟩
  have pending : ∀ s ∈ slots, s.Pending S N m₁ f [] [] (ext ++ maps)
      (f'.defineAll (temporaries.zip values')) m'₁ := by
    intro s hs
    obtain ⟨y, w', mem, pending⟩ := pending s hs
    refine pending same fun named => ⟨fresh y (List.of_mem_zip mem).1 named, ?_⟩
    refine Frame.get?_defineAll mem ?_ named scopes
    rwa [List.map_fst_zip names_le]
  have apart : (slots.map (·.job)).Pairwise Job.Apart := by
    refine List.pairwise_of_forall_mem_list fun j hj k _ => ?_
    obtain ⟨s, hs, rfl⟩ := List.mem_map.1 hj
    obtain ⟨v, e⟩ := held s hs
    exact e ▸ Job.ofRead_apart v k
  have avoids : ∀ s ∈ slots, s.job.Avoids (ext ++ maps) := by
    intro s hs
    obtain ⟨v, e⟩ := held s hs
    exact e ▸ Job.ofRead_avoids v _
  obtain ⟨maps₂, f'₂, m'₂, sub₂, run₂, states₂⟩ :=
    Slot.stages_run rounds sound (List.nil_subset _) (List.Subset.refl _) span pending
      apart avoids states₁ (writes ▸ run)
  refine ⟨maps₂, f'₂, m'₂, List.Subset.trans sub sub₂, ?_, states₂⟩
  rw [Step.steps_append, Step.sequence_append_of_ok bind]
  exact run₂

end

end FieldAccess
