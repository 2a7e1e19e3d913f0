import FieldAccess.Proofs.PlanAccesses
import FieldAccess.Proofs.SplitAssignment
import FieldAccess.Proofs.SteadyReads
import FieldAccess.Proofs.TypeAgreement

namespace FieldAccess

namespace Place

-- Writing fields changes no variable.
theorem ok_writePairs_fields {writes : List (Place × Value)} {f f₁ : Frame} {m m₁ : Machine}
    {x : Unit} (h : ∀ w ∈ writes, w.1 = .blank ∨ w.1.isField = true) :
    writePairs writes f m = .ok (x, f₁) m₁ ↔ f = f₁ ∧ m₁ = setFields writes m := by
  induction writes generalizing m with
  | nil =>
    change Step.writeAll [] [] f m = _ ↔ _
    simp only [Step.writeAll, Step.ok_pure, setFields]
    grind
  | cons w writes ih =>
    have ih {m : Machine} := @ih m fun w hw => h w (by simp [hw])
    obtain ⟨place, v⟩ := w
    rw [ok_writePairs_cons]
    cases place with
    | blank =>
      simp only [write, ok_access_blank, Exec.ok_pure, Prod.mk.injEq, setFields]
      grind
    | field a name =>
      simp only [ok_write_field, setFields]
      grind
    | named | item | temporary => rcases h _ (List.mem_cons_self ..) with h | h <;> cases h

end Place

-- A target that denotes a member of something, or nothing.
def Expr.IsMemberTarget (e : Expr) : Prop :=
  e.unparen.ident? = some "_" ∨ ∃ span base member, e.unparen = .select span base member

-- A step that changes no variable, and that depends on some variables alone.
structure Step.LeavesVariables (M : List String) (x : Step Flow) : Prop where
  run : ∀ {f f₁ fs m m₁ flow}, f.Agrees M fs → x f m = .ok (flow, f₁) m₁ →
    f₁ = f ∧ x fs m = .ok (flow, fs) m₁

theorem Step.LeavesVariables.mono {M M' : List String} {x : Step Flow} (h : LeavesVariables M x)
    (sub : M ⊆ M') : LeavesVariables M' x where
  run agrees run := h.run (fun y hy => agrees y (sub hy)) run

section

variable {p : Program} {call : CallHandler} {f : Frame} {m m₁ : Machine} {M : List String}

namespace Place

theorem field_of_resolve {e : Expr} {place : Place} (h : e.IsMemberTarget)
    (run : resolve p call f e m = .ok place m₁) : place = .blank ∨ place.isField = true := by
  rw [resolve_unparen] at run
  rcases h with blank | ⟨span, base, member, shape⟩
  · cases he : e.unparen <;> simp only [he, Expr.ident?, reduceCtorEq, Option.some.injEq] at blank
    subst blank
    rw [he, resolve] at run
    exact .inl (Exec.ok_pure.1 run).1.symm
  · rw [shape, resolve] at run
    obtain ⟨v, _, -, run⟩ := Exec.ok_bind.1 run
    cases v with
    | object => exact .inr ((Exec.ok_pure.1 run).1 ▸ rfl)
    | _ => exact (Exec.ok_fail.1 run).elim

theorem fields_of_resolveEach {es : List Expr} {places : List Place}
    (h : ∀ e ∈ es, e.IsMemberTarget) (run : resolveEach p call f es m = .ok places m₁) :
    ∀ place ∈ places, place = .blank ∨ place.isField = true := by
  induction es generalizing m places with
  | nil =>
    obtain ⟨rfl, -⟩ := Exec.ok_pure.1 run
    simp
  | cons e es ih =>
    rw [resolveEach] at run
    obtain ⟨place, _, resolved, run⟩ := Exec.ok_bind.1 run
    obtain ⟨rest, _, resolved', run⟩ := Exec.ok_bind.1 run
    obtain ⟨rfl, rfl⟩ := Exec.ok_pure.1 run
    exact List.forall_mem_cons.2 ⟨field_of_resolve (h e (by simp)) resolved,
      ih (fun e he => h e (by simp [he])) resolved'⟩

theorem resolveEach_agrees {fs : Frame} (h : f.Agrees M fs) {es : List Expr}
    (sub : namesOfExprs es ⊆ M) : resolveEach p call fs es = resolveEach p call f es := by
  induction es with
  | nil => rfl
  | cons e es ih =>
    obtain ⟨first, others⟩ := List.append_subset.1 sub
    rw [resolveEach, resolveEach, resolve_agrees h e first, ih others]

-- A field is found in the machine, not in the frame.
theorem access_field_agrees {α : Type} {g : Access α} {place : Place} (isField : place.isField = true)
    {a : α} {f₁ : Frame} (run : place.access g f m = .ok (a, f₁) m₁) (fs : Frame) :
    f₁ = f ∧ place.access g fs m = .ok (a, fs) m₁ := by
  cases place with
  | field address member =>
    obtain ⟨got, rfl⟩ := Step.ok_lift.1 run
    exact ⟨rfl, Step.ok_lift.2 ⟨got, rfl⟩⟩
  | _ => cases isField

end Place

namespace Step

theorem assign_leavesVariables {targets values : List Expr}
    (members : ∀ e ∈ targets, e.IsMemberTarget) :
    LeavesVariables (namesOfExprs targets ++ namesOfExprs values)
      (assign p call targets .assign values) where
  run {f f₁ fs m m₁ flow} agrees run := by
    obtain ⟨places, m₂, vs, m₃, resolved, evaluated, written, rfl⟩ := ok_assign.1 run
    rw [Place.writeAll_eq] at written
    have fields : ∀ w ∈ places.zip vs, w.1 = .blank ∨ w.1.isField = true := fun w hw =>
      Place.fields_of_resolveEach members resolved _ (List.of_mem_zip hw).1
    obtain ⟨rfl, set⟩ := (Place.ok_writePairs_fields fields).1 written
    rw [← Place.resolveEach_agrees agrees (List.subset_append_left ..)] at resolved
    rw [← Exec.evalFor_agrees agrees _ (List.subset_append_right ..)] at evaluated
    refine ⟨rfl, ok_assign.2 ⟨places, m₂, vs, m₃, resolved, evaluated, ?_, rfl⟩⟩
    rw [Place.writeAll_eq]
    exact (Place.ok_writePairs_fields fields).2 ⟨rfl, set⟩

theorem update_leavesVariables {op : BinaryOp} {target value : Expr} {span : Span} {base : Expr}
    {member : String} (shape : target.unparen = .select span base member) :
    LeavesVariables (target.names ++ value.names)
      (update p call op target (eval p call value)) where
  run {f f₁ fs m m₁ flow} agrees run := by
    obtain ⟨place, _, m₂, resolving, rest⟩ := ok_bind.1 run
    obtain ⟨resolved, rfl⟩ := ok_reading.1 resolving
    obtain ⟨current, _, m₃, got, later⟩ := ok_bind.1 rest
    have isField : place.isField = true := by
      rw [Place.resolve_unparen, shape, Place.resolve] at resolved
      obtain ⟨v, _, -, resolved⟩ := Exec.ok_bind.1 resolved
      cases v with
      | object => exact (Exec.ok_pure.1 resolved).1 ▸ rfl
      | _ => exact (Exec.ok_fail.1 resolved).elim
    obtain ⟨rfl, got'⟩ := Place.access_field_agrees isField got fs
    obtain ⟨v, _, m₄, valued, final⟩ := ok_bind.1 later
    obtain ⟨evaluated, rfl⟩ := ok_reading.1 valued
    obtain ⟨result, _, _, computing, last⟩ := ok_bind.1 final
    obtain ⟨computed, rfl⟩ := ok_lift.1 computing
    obtain ⟨_, _, _, written, done⟩ := ok_bind.1 last
    obtain ⟨rfl, rfl, rfl⟩ := ok_pure.1 done
    obtain ⟨rfl, written'⟩ := Place.access_field_agrees isField written fs
    rw [← Place.resolve_agrees agrees _ (List.subset_append_left ..)] at resolved
    rw [← Exec.eval_agrees agrees _ (List.subset_append_right ..)] at evaluated
    exact ⟨rfl, ok_bind.2 ⟨place, fs, m₂, ok_reading.2 ⟨resolved, rfl⟩,
      ok_bind.2 ⟨current, fs, m₃, got', ok_bind.2 ⟨v, fs, m₄, ok_reading.2 ⟨evaluated, rfl⟩,
        ok_bind.2 ⟨result, fs, _, ok_lift.2 ⟨computed, rfl⟩, ok_bind.2 ⟨_, fs, _, written', rfl⟩⟩⟩⟩⟩⟩

end Step

end

section

variable {settings : Settings} {span : Span} {ts : List Target} {vs : List TypedExpr}
  {temps temps' : Temporaries}

theorem captureTarget_isPlain {written : List String} {places : Bool} {t : Target}
    (h : t.isPlain = false) : (captureTarget span written places t temps).1.1.isPlain = false := by
  cases t with
  | blank => rfl
  | plain => cases h
  | field receiver info =>
    rw [captureTarget]
    split <;> rfl

theorem planTarget_isPlain {t : Target} (h : t.isPlain = false) (v : Option TypedExpr) :
    (planTarget settings span false t v temps).1.plain = none := by
  cases t with
  | blank =>
    rw [planTarget_blank]
    rfl
  | plain => cases h
  | field receiver info =>
    rw [planTarget_field]

-- Without variables among the targets, nothing is left of the assignment itself.
theorem planTargets_plain (fields : ∀ t ∈ ts, t.isPlain = false) :
    (planTargets settings span ts vs temps).1.plain = none := by
  have noPlain : ts.any (·.isPlain) = false := by simpa using fields
  have none : (planParts settings span ts vs temps).1.filterMap (·.plain) = [] := by
    refine List.filterMap_eq_nil_iff.2 fun part hp => ?_
    rw [planParts_eq, noPlain] at hp
    obtain ⟨⟨t', v⟩, mem, s, rfl⟩ := mem_mapM hp
    obtain ⟨operand, ho, rfl⟩ := List.mem_map.1 (List.of_mem_zip mem).1
    obtain ⟨t, ht, s', rfl⟩ := mem_mapM ho
    exact planTarget_isPlain (captureTarget_isPlain (fields t ht)) v
  rw [planTargets_eq]
  simp only [none]
  rfl

end

section

variable {S : Sides} {N : List String} {maps : List (Nat × Nat)} {depth : Nat} {u : Usage}
  {r : RedirectContext} {c : TypeContext} {call : CallHandler} {f f₁ f' : Frame}
  {m m₁ m' : Machine} {flow : Flow}

-- Nothing of an assignment to fields stays in a header.
theorem RedirectContext.Planned.moves {written : List Expr} {ts : List Target} {vs : List TypedExpr}
    {span : Span} {temps temps' : Temporaries} {p : AssignPlan}
    (h : Planned r span written temps ts vs p temps') (isField : ts.any (·.isField) = true)
    (fields : ∀ t ∈ ts, t.isPlain = false) : p.plain = none ∧ p.mutators ≠ [] := by
  cases h with
  | kept noField => simp [noField] at isField
  | single => exact ⟨rfl, by simp⟩
  | split _ _ plan =>
    have plain := @planTargets_plain r.settings span ts vs temps fields
    have mutators := @planTargets_writesFields r.settings span temps ts vs isField
    rw [plan] at plain mutators
    exact ⟨plain, mutators⟩

-- Redirected, an assignment with fields among its targets writes the same fields and variables: one
-- to fields alone, or one with a value for each target that leaves no constant unsettled.
theorem Step.split_assigned (rounds : Nat) (sound : S.Sound)
    (agrees : u.Agrees r c (S.view N f f' m))
    (sync : Sync S N depth maps f m f' m') {targets values : List Expr} {ts : List Target}
    {vs : List TypedExpr} (htargets : List.Forall₂ (fun e t => r.target c e = .ok t) targets ts)
    (hvalues : List.Forall₂ (fun e t => r.value c e = .ok t) values vs) {span : Span}
    {temps temps' : Temporaries} {p : AssignPlan}
    (planned : RedirectContext.Planned r span targets temps ts vs p temps')
    (isField : ts.any (·.isField) = true) (simple : ∀ e ∈ targets, e.IsSimpleTarget)
    (given : (∀ t ∈ ts, t.isPlain = false) ∧ (targets.length ≤ values.length ∨ values.length = 1) ∨
      ts.length = vs.length ∧ List.Forall₂ (Settled (planWritten ts)) values (ts.zip vs))
    (fits : ∀ e ∈ targets ++ values, e.Fits u) (names : ∀ e ∈ targets ++ values, e.names ⊆ N)
    (covers : N ⊆ temps.taken)
    (run : assign S.source call targets .assign values f m = .ok (flow, f₁) m₁) :
    flow = .next ∧ ∃ maps₁ f'₁ m'₁, maps ⊆ maps₁ ∧
      sequence (steps S.target S.call rounds p.statements) f' m' = .ok (.next, f'₁) m'₁ ∧
      States S N maps₁ f₁ m₁ f'₁ m'₁ := by
  obtain ⟨places, m₂, values₁, m₃, resolved, evaluated, written, rfl⟩ := ok_assign.1 run
  have fitsTargets : ∀ e ∈ targets, e.Fits u := fun e he => fits e (List.mem_append_left _ he)
  have fitsValues : ∀ e ∈ values, e.Fits u := fun e he => fits e (List.mem_append_right _ he)
  have namesTargets : ∀ e ∈ targets, e.names ⊆ N := fun e he => names e (List.mem_append_left _ he)
  have namesValues : ∀ e ∈ values, e.names ⊆ N := fun e he => names e (List.mem_append_right _ he)
  have freeTargets : ∀ e ∈ targets, e.isCallFree = true := fun e he =>
    Expr.isCallFree_of_fits e (fitsTargets e he)
  have freeValues : ∀ e ∈ values, e.isCallFree = true := fun e he =>
    Expr.isCallFree_of_fits e (fitsValues e he)
  have grows₁ := (Place.resolveEach_onlyAllocates freeTargets).grows resolved
  have grows₂ := (Exec.evalFor_onlyAllocates _ _ _ _ freeValues).grows evaluated
  have grows := grows₁.trans grows₂
  have agrees := agrees.grow grows
  have ready : (S.view N f f' m₃).Ready maps m' := sync.ready grows sync.inKind
  have below : Below maps m.maps.size := fun p hp => (sync.tables.bounded p hp).1
  obtain ⟨denotes, rfl⟩ := denotes_of_resolveEach sound agrees htargets simple fitsTargets
    namesTargets ready below grows₂ resolved
  have states : States S N maps f m₃ f' m' :=
    sync.toStates.mono (List.Subset.refl _) grows (.refl _) ready.tables
  have scopes : f'.scopes ≠ [] := by
    have := sync.scopes.length_eq
    have := sync.depth
    intro none
    simp_all
  rw [Place.writeAll_eq] at written
  refine ⟨rfl, ?_⟩
  cases planned with
  | kept noField => simp [noField] at isField
  | @single receiver info value =>
    obtain ⟨e, _, value, none, rfl⟩ := List.forall₂_cons_right_iff.1 hvalues
    cases none
    cases denotes with
    | cons head none =>
      cases none
      cases head with
      | field seen stores hy mem var =>
        have single : [e].length = targets.length := htargets.length_eq.symm
        obtain ⟨jobs, done, rfl, _⟩ := jobs_of_all freeValues ((Exec.evalFor_paired single).1 evaluated)
        cases done with
        | @cons _ j _ _ did none =>
          cases none
          obtain ⟨rfl, rfl⟩ :=
            (Place.ok_writePairs_fields (List.forall_mem_singleton.2 (.inr rfl))).1 written
          have due := did.due sound agrees below ready value (fitsValues e (by simp))
            (namesValues e (by simp))
          obtain ⟨ext, m'₁, run', _, machines, _⟩ := write_runs rounds _ r.settings span sound
            (sound.seen_subset _ seen) stores hy var due (did.avoids below) states.toMachines rfl
          have sub := List.subset_append_right ext maps
          refine ⟨ext ++ maps, f', m'₁, sub, ?_, machines, states.scopes.mono sub⟩
          simp only [AssignPlan.statements, Option.toList, List.nil_append, steps, sequence_single]
          exact run'
  | @split ts vs p temps' _ _ plan =>
    have statements : p.statements = (planTargets r.settings span ts vs temps).1.statements := by
      rw [plan]
    rw [statements]
    by_cases paired : ts.length = vs.length
    · have paired' : values.length = targets.length := by
        rw [htargets.length_eq, hvalues.length_eq, paired]
      have settled : List.Forall₂ (Settled (planWritten ts)) values (ts.zip vs) := by
        rcases given with ⟨fields, -⟩ | ⟨-, settled⟩
        · refine List.forall₂_iff_zip.2 ⟨by simp [hvalues.length_eq, paired], fun _ _ _ x _ => ?_⟩
          simp [planWritten_of_fields fields]
        · exact settled
      obtain ⟨jobs, done, rfl, ordered, _⟩ :=
        jobs_of_all freeValues ((Exec.evalFor_paired paired').1 evaluated)
      exact paired_runs rounds r.settings span sound agrees ready below hvalues done ordered
        fitsValues namesValues denotes paired settled covers states scopes written
    · obtain ⟨fields, enough⟩ := given.resolve_right fun h => paired h.1
      have le := Exec.length_evalFor enough evaluated
      rw [htargets.length_eq] at le evaluated
      exact unpaired_runs rounds r.settings span sound agrees ready below hvalues fitsValues
        namesValues denotes fields paired covers states scopes evaluated le written

end

end FieldAccess
