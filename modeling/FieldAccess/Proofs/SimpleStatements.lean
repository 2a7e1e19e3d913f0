import FieldAccess.Proofs.ShorthandSimulation
import FieldAccess.Proofs.TypeAgreement
import FieldAccess.Proofs.WatchedRuns

namespace FieldAccess

-- A selector on a variable that denotes a field.
def Expr.IsField (u : Usage) : Expr → Prop
  | .paren _ inner => inner.IsField u
  | .select _ base member => ∃ x, base.unparen.ident? = some x ∧ u.field x member
  | _ => False

-- A variable that code may declare: neither the receiver nor one with fields.
structure Usage.Free (u : Usage) (x : String) : Prop where
  receiver : u.receiver ≠ some x
  field : ∀ member, ¬ u.field x member

-- An assignment that writes fields alone or none. Where it writes to what lies in a field, no
-- target is left without a value.
structure Usage.Assigns (u : Usage) (targets values : List Expr) : Prop where
  fits : ∀ e ∈ targets ++ values, e.Fits u
  alone : (∀ e ∈ targets, ¬ e.IsField u) ∨
    ∀ e ∈ targets, e.IsField u ∨ e.unparen.ident? = some "_"
  enough : (∃ e ∈ targets, e.InField u) → targets.length ≤ values.length ∨ values.length = 1

-- Simple statements without calls that declare no variable with fields.
def Stmt.SimplyFits (u : Usage) : Stmt → Prop
  | .empty _ => True
  | .expr e => e.Fits u
  | .assign _ targets .assign values => u.Assigns targets values
  | .assign _ targets .define values =>
    (∀ e ∈ values, e.Fits u) ∧ ∀ x ∈ targets.filterMap (·.ident?), u.Free x
  | .assign _ targets (.compound op) values =>
    op.isArithmetic = true ∧ ∀ e ∈ targets ++ values, e.Fits u
  | .step _ target _ => target.Fits u
  | _ => False

-- Whether a simple statement writes fields.
def Stmt.WritesField (u : Usage) : Stmt → Prop
  | .assign _ targets _ _ => ∃ e ∈ targets, e.IsField u
  | .step _ target _ => target.IsField u
  | _ => False

variable {S : Sides} {N M : List String} {base : List (Nat × Nat)} {rounds : Nat} {u : Usage}
  {r : RedirectContext} {c : TypeContext} {call : CallHandler} {holds : Machine → Bool}

section

variable {e : Expr} {t : Target}

theorem Expr.isField_unparen (e : Expr) : e.IsField u ↔ e.unparen.IsField u :=
  unparen_induction (P := fun e e' => e.IsField u ↔ e'.IsField u) (fun _ _ h => h)
    (fun _ _ => .rfl) e

-- What denotes a field, in parentheses or not, is a selector on a variable.
theorem Expr.IsField.shape (h : e.IsField u) : ∃ span base member x,
    e.unparen = .select span base member ∧ base.unparen.ident? = some x ∧ u.field x member := by
  rw [Expr.isField_unparen] at h
  cases he : e.unparen <;> rw [he] at h <;> try exact h.elim
  case select span base member =>
    obtain ⟨x, hx, hf⟩ := h
    exact ⟨span, base, member, x, rfl, hx, hf⟩
  case paren => exact absurd he (e.unparen_ne_paren _ _)

theorem Expr.IsField.inField (h : e.IsField u) : e.InField u := by
  obtain ⟨span, base, member, x, shape, hx, hf⟩ := h.shape
  rw [Expr.inField_unparen, shape]
  exact ⟨x, hx, hf⟩

theorem Expr.IsField.isMemberTarget (h : e.IsField u) : e.IsMemberTarget := by
  obtain ⟨span, base, member, x, shape, -⟩ := h.shape
  exact .inr ⟨span, base, member, shape⟩

theorem Expr.IsMemberTarget.isSimpleTarget (h : e.IsMemberTarget) : e.IsSimpleTarget :=
  ⟨h.imp_left fun blank => ⟨_, blank⟩⟩

theorem RedirectContext.target_of_isField {w : View} (agrees : u.Agrees r c w)
    (h : r.target c e = .ok t) (isField : e.IsField u) : t.isField = true := by
  obtain ⟨span, base, member, x, shape, hx, hf⟩ := isField.shape
  obtain ⟨type, _, _, _, known, -, resolves, -⟩ := agrees.field hf
  rw [RedirectContext.target_unparen, shape] at h
  simp only [RedirectContext.target, RedirectContext.value_of_unparen hx, known, Option.map_some,
    ok_bind, Except.ok.injEq, exists_eq_left', resolves] at h
  exact ok_pure.1 h ▸ rfl

-- Only selectors are redirected to mutators.
theorem RedirectContext.exists_select (h : r.target c e = .ok t) (isField : t.isField = true) :
    ∃ span base member b, e.unparen = .select span base member ∧ r.value c base = .ok b := by
  rw [RedirectContext.target_unparen] at h
  cases he : e.unparen <;> rw [he, RedirectContext.target] at h
  case select span base member =>
    obtain ⟨b, hb, -⟩ := ok_bind.1 h
    exact ⟨span, base, member, b, rfl, hb⟩
  case ident =>
    have h := ok_pure.1 h
    split at h <;> subst h <;> cases isField
  case paren => exact absurd he (e.unparen_ne_paren _ _)
  all_goals
    obtain ⟨_, _, h⟩ := ok_bind.1 h
    cases ok_pure.1 h
    cases isField

end

section

variable {maps : List (Nat × Nat)} {f f' : Frame} {m m₁ m' : Machine}

-- A target that is redirected to a mutator but denotes no field of an object has no place.
theorem Place.resolve_stray (sound : S.Sound) (agrees : u.Agrees r c (S.view N f f' m₁))
    {e : Expr} {t : Target} {place : Place} (h : r.target c e = .ok t) (isField : t.isField = true)
    (stray : ¬ e.IsField u) (fits : e.Fits u) (names : e.names ⊆ N)
    (ready : (S.view N f f' m₁).Ready maps m') (below : Below maps m.maps.size)
    {hi : Machine} (grows : hi.Grows m₁) : resolve S.source call f e m ≠ .ok place hi := by
  intro run
  obtain ⟨span, base, member, b, shape, hb⟩ := RedirectContext.exists_select h isField
  rw [Expr.isField_unparen, shape] at stray
  rw [Expr.fits_unparen, shape] at fits
  rw [Expr.names_unparen, shape] at names
  rw [resolve_unparen, shape, resolve] at run
  obtain ⟨strays, fits⟩ := fits.resolve_left stray
  obtain ⟨v, mid, run, selected⟩ := Exec.ok_bind.1 run
  have grows' : mid.Grows hi := by
    cases v with
    | object => exact (Exec.ok_pure.1 selected).2 ▸ .refl _
    | nil => exact (Exec.ok_fail.1 selected).elim
    | _ => exact (Exec.ok_fail.1 selected).elim
  obtain ⟨v', _, _, _, _, _, _, alike⟩ :=
    (Exec.eval_mimics sound agrees base hb fits names (.inl rfl)).run run (grows'.trans grows)
      (List.Subset.refl maps) below ready
  simp only [View.Alike, show (S.view N f f' m₁).sides.loose = [] from agrees.strays strays] at alike
  cases alike with
  | object mem => cases mem
  | _ => exact (Exec.ok_fail.1 selected).elim

-- The same for targets one of which is such.
theorem Place.resolveEach_stray (sound : S.Sound) (agrees : u.Agrees r c (S.view N f f' m₁))
    {es : List Expr} {ts : List Target} {places : List Place}
    (h : List.Forall₂ (fun e t => r.target c e = .ok t) es ts)
    (stray : ¬ List.Forall₂ (fun e t => t.isField = true → e.IsField u) es ts)
    (fits : ∀ e ∈ es, e.Fits u) (names : ∀ e ∈ es, e.names ⊆ N)
    (ready : (S.view N f f' m₁).Ready maps m') (below : Below maps m.maps.size) {hi : Machine}
    (grows : hi.Grows m₁) :
    resolveEach S.source call f es m ≠ .ok places hi := by
  intro run
  induction h generalizing m places with
  | nil => exact stray .nil
  | @cons e t es ts head tail ih =>
    obtain ⟨first, later⟩ := List.forall_mem_cons.1 fits
    rw [resolveEach] at run
    obtain ⟨place, mid, resolved, run⟩ := Exec.ok_bind.1 run
    obtain ⟨rest, _, resolved', run⟩ := Exec.ok_bind.1 run
    obtain ⟨rfl, rfl⟩ := Exec.ok_pure.1 run
    have grows₁ := (resolve_onlyAllocates _ _ _ e (Expr.isCallFree_of_fits e first)).grows resolved
    have grows₂ := (resolveEach_onlyAllocates fun e he =>
      Expr.isCallFree_of_fits e (later e he)).grows resolved'
    by_cases known : t.isField = true → e.IsField u
    · exact ih (fun all => stray (.cons known all)) later (fun e he => names e (by simp [he]))
        (fun p hp => Nat.lt_of_lt_of_le (below p hp) grows₁.mapsLe) resolved'
    · obtain ⟨isField, stray⟩ := Classical.not_imp.1 known
      exact resolve_stray sound agrees head isField stray first (names e (by simp)) ready below
        (grows₂.trans grows) resolved

end

-- A step that succeeds in no states that correspond.
structure Step.Fails (S : Sides) (N : List String) (x : Step Flow) : Prop where
  run : ∀ {depth maps f m f' m' flow m₁}, Sync S N depth maps f m f' m' → x f m ≠ .ok flow m₁

-- A step that sets fields and changes no variable, and statements that set the same fields on
-- wrappers. The step reads some of the variables alone, so the statements may run wherever those
-- are the same.
structure Step.SetsFields (S : Sides) (N M : List String) (rounds : Nat) (x : Step Flow)
    (ss : List Stmt) : Prop where
  leaves : LeavesVariables M x
  run : ∀ {depth maps f m f' m' flow m₁}, Sync S N depth maps f m f' m' →
    x f m = .ok (flow, f) m₁ → flow = .next ∧ ∃ maps₁ f'₁ m'₁, maps ⊆ maps₁ ∧
      sequence (steps S.target S.call rounds ss) f' m' = .ok (.next, f'₁) m'₁ ∧
      States S N maps₁ f m₁ f'₁ m'₁

-- What a step does on plain objects, the plan does on wrappers: the plan is a statement of its own,
-- or, where fields are written, it sets fields alone.
inductive AssignPlan.Follows (S : Sides) (N M : List String) (written : Prop) (rounds : Nat)
    (x : Step Flow) (p : AssignPlan) : Prop
  | never : Step.Fails S N x → Follows S N M written rounds x p
  | kept {s : Stmt} : p = .keep s →
      Step.Simulates S N [] x (Step.exec S.target S.call rounds s)
        (fun _ flow flow' => flow = .next ∧ flow' = .next) → Follows S N M written rounds x p
  | fields : written → p.plain = none → p.mutators ≠ [] →
      Step.SetsFields S N M rounds x p.statements → Follows S N M written rounds x p

theorem AssignPlan.Follows.mono {M' : List String} {written written' : Prop} {x : Step Flow}
    {p : AssignPlan} (h : p.Follows S N M written rounds x)
    (sub : M ⊆ M') (imp : written → written') : p.Follows S N M' written' rounds x := by
  cases h with
  | never fails => exact .never fails
  | kept keeps simulates => exact .kept keeps simulates
  | fields field noPlain writes sets =>
    exact .fields (imp field) noPlain writes ⟨sets.leaves.mono sub, sets.run⟩

namespace Step

variable {α β : Type} {x : Step α} {x' : Step β} {R : List (Nat × Nat) → α → β → Prop}

theorem Simulates.of_mayStop {y : Step α} (h : Simulates S N base x x' R) (stop : MayStop x y) :
    Simulates S N base y x' R where
  run sub sync run := h.run sub sync (stop.run run)

theorem ok_watched {f f₁ : Frame} {m m₁ : Machine} {a : α} :
    (do let a ← x; watch holds; return a : Step α) f m = .ok (a, f₁) m₁ ↔
      x f m = .ok (a, f₁) m₁ ∧ holds m₁ = true := by
  simp only [ok_bind, ok_watch, ok_pure]
  grind

-- Both sides declare the same names, with values that correspond.
theorem define_simulates {x : String} {v v' : Value} (other : S.receiver ≠ some x)
    (h : Value.Alike S.loose base v v') :
    Simulates S N base (define x v) (define x v') fun _ _ _ => True where
  run {depth maps f m f' m' _ f₂ m₂} sub sync run := by
    obtain ⟨rfl, rfl⟩ := ok_modify.1 run
    refine ⟨maps, (), f'.define x v', m', List.Subset.refl _, rfl, ?_, trivial⟩
    have hv : Value.Alike (S.seen x) maps v v' := by
      rw [Sides.seen_of_ne other]
      exact h.mono (List.Subset.refl _) sub
    refine ⟨⟨sync.toMachines, sync.scopes.define hv⟩, sync.inKind, ?_⟩
    rw [Frame.length_define]
    exact sync.depth

theorem defineAll_simulates {names : List String} {vs vs' : List Value}
    (other : ∀ x ∈ names, S.receiver ≠ some x)
    (h : List.Forall₂ (Value.Alike S.loose base) vs vs') :
    Simulates S N base (defineAll names vs) (defineAll names vs') fun _ _ _ => True := by
  induction h generalizing names with
  | nil => cases names <;> exact .pure fun _ _ => trivial
  | cons head tail ih =>
    cases names with
    | nil => exact .pure fun _ _ => trivial
    | cons x names =>
      obtain ⟨first, later⟩ := List.forall_mem_cons.1 other
      exact .bind (define_simulates first head) fun _ _ _ sub _ => (ih later).base_mono sub

theorem defineTargets_simulates {targets : List Expr} {vs vs' : List Value}
    (other : ∀ x ∈ targets.filterMap (·.ident?), S.receiver ≠ some x)
    (h : List.Forall₂ (Value.Alike S.loose base) vs vs') :
    Simulates S N base (defineTargets targets vs) (defineTargets targets vs') fun _ _ _ => True := by
  induction h generalizing targets with
  | nil => cases targets <;> exact .pure fun _ _ => trivial
  | cons head tail ih =>
    cases targets with
    | nil => exact .pure fun _ _ => trivial
    | cons target targets =>
      cases ht : target.ident? with
      | none =>
        refine .of_fails fun f m _ _ _ run => ?_
        rw [defineTargets, ht] at run
        obtain ⟨_, _, _, found, -⟩ := ok_bind.1 run
        exact Exec.ok_throw.1 (ok_lift.1 found).1
      | some x =>
        rw [List.filterMap_cons_some ht] at other
        obtain ⟨first, later⟩ := List.forall_mem_cons.1 other
        rw [defineTargets, defineTargets, ht]
        change Simulates S N base (pure x >>= _) (pure x >>= _) _
        rw [pure_bind, pure_bind]
        exact .bind (define_simulates first head) fun _ _ _ sub _ => (ih later).base_mono sub

section

variable (sound : S.Sound) (agrees : ∀ f f' m, u.Agrees r c (S.view N f f' m))

include sound agrees

theorem eval_simulates {e : Expr} {t : TypedExpr} (h : r.value c e = .ok t) (fits : e.Fits u)
    (names : e.names ⊆ N) :
    Simulates S N base (eval S.source call e) (eval S.target S.call t.expr)
      (Value.Alike S.loose) :=
  .reading (fun _ => Exec.eval_onlyAllocates _ _ _ e (Expr.isCallFree_of_fits e fits))
    fun f f' m => Exec.eval_mimics sound (agrees f f' m) e h fits names (.inl rfl)

theorem evalAll_simulates {e : Expr} {t : TypedExpr} (h : r.value c e = .ok t) (fits : e.Fits u)
    (names : e.names ⊆ N) :
    Simulates S N base (reading (Exec.evalAll S.source call · e))
      (reading (Exec.evalAll S.target S.call · t.expr))
      fun maps => List.Forall₂ (Value.Alike S.loose maps) :=
  .reading (fun _ => Exec.evalAll_onlyAllocates _ _ _ (Expr.isCallFree_of_fits e fits))
    fun f f' m => Exec.evalAll_mimics sound (agrees f f' m) h fits names (.inl rfl)

theorem evalFor_simulates (count : Nat) {es : List Expr} {ts : List TypedExpr}
    (h : r.values c es = .ok ts) (fits : ∀ e ∈ es, e.Fits u) (names : ∀ e ∈ es, e.names ⊆ N) :
    Simulates S N base (evalFor S.source call count es)
      (evalFor S.target S.call count (ts.map (·.expr)))
      fun maps => List.Forall₂ (Value.Alike S.loose maps) :=
  .reading (fun _ => Exec.evalFor_onlyAllocates _ _ _ _ fun e he =>
      Expr.isCallFree_of_fits e (fits e he))
    fun f f' m => Exec.evalFor_mimics sound (agrees f f' m) count (RedirectContext.ok_values.1 h) fits
      names (.inl rfl)

end

theorem eval_asOperandOf (p : Program) (e : Expr) (op : BinaryOp) (span : Span) :
    eval p call (e.asOperandOf op span) = eval p call e := by
  rw [Expr.asOperandOf]
  split
  · unfold eval
    simp only [Exec.eval]
  · rfl

end Step

theorem Expr.fits_asOperandOf {e : Expr} (op : BinaryOp) (span : Span) :
    (e.asOperandOf op span).Fits u ↔ e.Fits u := by
  rw [asOperandOf]
  split <;> rfl

theorem Expr.names_asOperandOf (e : Expr) (op : BinaryOp) (span : Span) :
    (e.asOperandOf op span).names = e.names := by
  rw [asOperandOf]
  split <;> rfl

theorem Frame.agrees_push (f : Frame) (N : List String) : f.push.Agrees N f :=
  fun x _ => (f.get?_push x).symm

theorem Stmt.SimplyFits.watched_eq {s : Stmt} (fits : s.SimplyFits u) (p : Program) :
    Step.watched p call rounds holds s = do
      let flow ← Step.exec p call rounds s
      Step.watch holds
      return flow := by
  cases s <;> first | exact fits.elim | (rw [Step.watched] <;> simp)

section

variable {x : Step Flow} {p : AssignPlan} {ss : List Stmt} {written : Prop}

-- The states after fields were set, if their kinds are as they should be.
theorem Step.SetsFields.simulates (h : SetsFields S N M rounds x ss)
    (kinds : ∀ m, holds m = true → S.InKind m) :
    Simulates S N base (do let flow ← x; watch holds; return flow)
      (sequence (steps S.target S.call rounds ss)) (Flow.Alike S) where
  run {depth maps f m f' m' flow f₁ m₁} _ sync run := by
    obtain ⟨run, held⟩ := ok_watched.1 run
    obtain ⟨rfl, -⟩ := h.leaves.run (fun _ _ => rfl : f.Agrees M f) run
    obtain ⟨rfl, maps₁, f'₁, m'₁, sub, run', states⟩ := h.run sync run
    exact ⟨maps₁, .next, f'₁, m'₁, sub, run', ⟨states, kinds _ held, sync.depth⟩, .next⟩

-- In a list of statements the plan stands for the step.
theorem AssignPlan.Follows.listed (h : p.Follows S N M written rounds x)
    (kinds : ∀ m, holds m = true → S.InKind m) :
    Step.Simulates S N base (do let flow ← x; Step.watch holds; return flow)
      (Step.sequence (Step.steps S.target S.call rounds p.statements)) (Flow.Alike S) := by
  cases h with
  | never fails => exact ⟨fun _ sync run => absurd (Step.ok_watched.1 run).1 (fails.run sync)⟩
  | @kept s keeps simulates =>
    rw [show p.statements = [s] from keeps ▸ rfl, Step.steps, Step.steps, Step.sequence_single]
    refine (simulates.mono (List.nil_subset _) ?_).of_mayStop (.watched x)
    rintro _ _ _ - ⟨rfl, rfl⟩
    exact .next
  | fields _ _ _ sets => exact sets.simulates kinds

end

-- What becomes of a header: it keeps its statement, or what it does is done in front of the
-- construct or at the end of the body.
inductive Relocated.Follows (S : Sides) (N M : List String) (written : Prop) (rounds : Nat)
    (x : Step Flow) (moved : Relocated) : Prop
  | never : Step.Fails S N x → Follows S N M written rounds x moved
  | kept : moved.before = [] → moved.after = [] →
      Step.Simulates S N [] x (Step.execOption S.target S.call rounds moved.header)
        (fun _ _ _ => True) → Follows S N M written rounds x moved
  | fields {span : Span} : written → moved.header = some (.empty span) →
      moved.before ++ moved.after ≠ [] →
      Step.SetsFields S N M rounds x (moved.before ++ moved.after) →
      Follows S N M written rounds x moved

namespace RedirectContext

variable {temps temps' : Temporaries} {moved : Relocated} {place : Header}

theorem relocate_follows {x : Step Flow} {p : AssignPlan} {span : Span} {written : Prop}
    (h : r.relocate place span p = .ok moved) (follows : p.Follows S N M written rounds x) :
    moved.Follows S N M written rounds x := by
  cases follows with
  | never fails => exact .never fails
  | kept keeps simulates =>
    subst keeps
    obtain rfl := ok_pure.1 h
    exact .kept rfl rfl (simulates.mono (List.Subset.refl _) fun _ _ _ _ _ => trivial)
  | fields field noPlain writes sets =>
    have statements : p.statements = p.bindings ++ p.mutators := by
      simp [AssignPlan.statements, noPlain]
    have mutates : p.writesFields = true := by simpa [AssignPlan.writesFields] using writes
    have leaves : ∃ m : Relocated, m = moved ∧ m.header = some (.empty span) ∧
        m.before ++ m.after = p.statements := by
      cases place with
      | elseIfInit =>
        simp only [relocate, mutates] at h
        exact (ok_throw.1 h).elim
      | forPost =>
        simp only [relocate, noPlain, mutates, Bool.not_true, Bool.false_eq_true, if_false] at h
        split at h <;> exact ⟨_, ok_pure.1 h, rfl, by simp [statements]⟩
      | ifInit | forInit | switchInit =>
        simp only [relocate, noPlain, mutates, Bool.not_true, Bool.false_eq_true, if_false] at h
        exact ⟨_, ok_pure.1 h, rfl, by simp [statements]⟩
    obtain ⟨_, rfl, header, same⟩ := leaves
    exact .fields field header (by simp [same, statements, writes]) (same ▸ sets)

variable (rounds) (sound : S.Sound) (agrees : ∀ f f' m, u.Agrees r c (S.view N f f' m))
  (covers : N ⊆ temps.taken) {p : AssignPlan} {span : Span} {targets values : List Expr}

include sound agrees covers

theorem planAssign_follows (assigns : u.Assigns targets values)
    (names : ∀ e ∈ targets ++ values, e.names ⊆ N)
    (h : r.planAssign c span targets values temps = .ok (p, temps')) :
    p.Follows S N (namesOfExprs targets ++ namesOfExprs values) (∃ e ∈ targets, e.IsField u) rounds
      (Step.assign S.source call targets .assign values) := by
  obtain ⟨ts, vs, hts, hvs, planned⟩ := planned_of_ok h
  have hts := ok_mapM.1 hts
  have hvs := ok_values.1 hvs
  have fitsTargets : ∀ e ∈ targets, e.Fits u := fun e he =>
    assigns.fits e (List.mem_append_left _ he)
  have fitsValues : ∀ e ∈ values, e.Fits u := fun e he =>
    assigns.fits e (List.mem_append_right _ he)
  by_cases stray : ¬ List.Forall₂ (fun e t => t.isField = true → e.IsField u) targets ts
  · refine .never ⟨fun {_ maps f m f' m' flow m₁} sync run => ?_⟩
    obtain ⟨flow, f₁⟩ := flow
    obtain ⟨places, m₂, _, _, resolved, -⟩ := Step.ok_assign.1 run
    have grows := (Place.resolveEach_onlyAllocates fun e he =>
      Expr.isCallFree_of_fits e (fitsTargets e he)).grows resolved
    exact Place.resolveEach_stray sound (agrees f f' m₂) hts stray fitsTargets
      (fun e he => names e (List.mem_append_left _ he)) (sync.ready grows sync.inKind)
      (fun p hp => (sync.tables.bounded p hp).1) (.refl _) resolved
  · by_cases isField : ts.any (·.isField) = true
    · -- A field among the targets: all others are fields or blank, and none is a variable.
      obtain ⟨t, ht, hf⟩ := List.any_eq_true.1 isField
      obtain ⟨e, mem, known⟩ := exists_rel_of_mem_right (not_not.1 stray) ht
      have known := known hf
      have inside : ∃ e ∈ targets, e.InField u := ⟨e, mem, known.inField⟩
      have alone := assigns.alone.resolve_left fun none => none e mem known
      have fields : ∀ t ∈ ts, t.isPlain = false := by
        intro t ht
        obtain ⟨e, he, denotes⟩ := exists_rel_of_mem_right hts ht
        rcases alone e he with field | blank
        · have := target_of_isField (agrees default default default) denotes field
          cases t <;> first | rfl | cases this
        · rw [target_of_blank denotes blank]
          rfl
      have members : ∀ e ∈ targets, e.IsMemberTarget := fun e he =>
        (alone e he).elim (·.isMemberTarget) .inl
      obtain ⟨noPlain, writes⟩ := planned.moves isField fields
      refine .fields ⟨e, mem, known⟩ noPlain writes ⟨Step.assign_leavesVariables members,
        fun {_ _ f m f' _ _ _} sync run => ?_⟩
      exact Step.split_assigned rounds sound (agrees f f' m) sync hts hvs planned isField
        (fun e he => (members e he).isSimpleTarget) (.inl ⟨fields, assigns.enough inside⟩)
        assigns.fits names covers run
    · have noField : ∀ t ∈ ts, t.isField = false := by simpa using isField
      cases planned with
      | single => simp [Target.isField] at isField
      | split isField' => exact absurd isField' isField
      | kept =>
        refine .kept rfl ⟨fun {_ maps f m f' m' flow f₁ m₁} _ sync run => ?_⟩
        obtain ⟨maps₁, f'₁, m'₁, sub, run', sync', rfl⟩ := Step.assign_kept sound (agrees f f' m) sync
          hts noField hvs assigns.enough assigns.fits names run
        exact ⟨maps₁, .next, f'₁, m'₁, sub, run', sync', rfl, rfl⟩

-- The plan of what a shorthand stands for does what the shorthand does.
theorem update_follows {op : BinaryOp} (arithmetic : op.isArithmetic = true) {target value : Expr}
    {at_ : Span} (fits : target.Fits u ∧ value.Fits u) (names : target.names ⊆ N ∧ value.names ⊆ N)
    (h : r.planAssign c span [target] [.binary at_ op target value] temps = .ok (p, temps')) :
    p.Follows S N (target.names ++ value.names) (target.IsField u) rounds
      (Step.update S.source call op target (Step.eval S.source call value)) := by
  by_cases field : target.IsField u
  · -- The assignment that it stands for does the same.
    obtain ⟨_, base, member, x, shape, hx, hf⟩ := field.shape
    have assigns : u.Assigns [target] [.binary at_ op target value] :=
      ⟨List.forall_mem_cons.2 ⟨fits.1, List.forall_mem_singleton.2 fits⟩,
        .inr (List.forall_mem_singleton.2 (.inl field)), fun _ => .inr rfl⟩
    have whole : ∀ e ∈ [target] ++ [.binary at_ op target value], e.names ⊆ N :=
      List.forall_mem_cons.2 ⟨names.1, List.forall_mem_singleton.2 (List.append_subset.2 names)⟩
    obtain ⟨_, vs, -, hvs, -⟩ := planned_of_ok h
    obtain ⟨tv, -, hvalue, -, -⟩ := List.forall₂_cons_left_iff.1 (ok_values.1 hvs)
    have same {depth maps f m f' m' flow f₁ m₁} (sync : Sync S N depth maps f m f' m')
        (run : Step.update S.source call op target (Step.eval S.source call value) f m =
          .ok (flow, f₁) m₁) :=
      Step.assign_of_update_field sound (agrees f f' m) arithmetic hvalue fits names sync shape hx hf
        run
    cases (planAssign_follows rounds sound agrees covers assigns whole h :
      p.Follows S N _ _ rounds (Step.assign S.source call _ _ _)) with
    | never fails =>
      refine .never ⟨fun {_ maps f m f' m' flow m₁} sync run => ?_⟩
      obtain ⟨flow, f₁⟩ := flow
      obtain ⟨rfl, assigned⟩ := same sync run
      exact fails.run sync assigned
    | kept keeps simulates =>
      refine .kept keeps ⟨fun sub sync run => ?_⟩
      obtain ⟨rfl, assigned⟩ := same sync run
      exact simulates.run sub sync assigned
    | fields _ noPlain writes sets =>
      refine .fields field noPlain writes ⟨Step.update_leavesVariables shape, fun sync run => ?_⟩
      obtain ⟨rfl, assigned⟩ := same sync run
      exact sets.run sync assigned
  · obtain ⟨ts, vs, hts, hvs, planned⟩ := planned_of_ok h
    obtain ⟨t, _, htarget, none, rfl⟩ := List.forall₂_cons_left_iff.1 (ok_mapM.1 hts)
    cases none
    obtain ⟨tv, _, hvalue, none, rfl⟩ := List.forall₂_cons_left_iff.1 (ok_values.1 hvs)
    cases none
    by_cases isField : t.isField = true
    · refine .never ⟨fun {_ maps f m f' m' flow m₁} sync run => ?_⟩
      obtain ⟨flow, f₁⟩ := flow
      obtain ⟨-, place, m₂, -, -, -, -, resolved, -⟩ := Step.ok_update arithmetic run
      have grows := (Place.resolve_onlyAllocates _ _ _ target
        (Expr.isCallFree_of_fits target fits.1)).grows resolved
      exact Place.resolve_stray sound (agrees f f' m₂) htarget isField field fits.1 names.1
        (sync.ready grows sync.inKind) (fun p hp => (sync.tables.bounded p hp).1)
        (.refl _) resolved
    · cases planned with
      | single => exact absurd rfl isField
      | split isField' => simp [isField] at isField'
      | kept =>
        refine .kept rfl ⟨fun {_ maps f m f' m' flow f₁ m₁} _ sync run => ?_⟩
        obtain ⟨rfl, maps₁, f'₁, m'₁, sub, run', sync'⟩ := Step.update_kept sound (agrees f f' m)
          arithmetic hvalue fits names sync htarget (by simpa using isField) run
        exact ⟨maps₁, .next, f'₁, m'₁, sub, run', sync', rfl, rfl⟩

-- What a simple statement does that assigns or declares, the plan of its expanded form does.
theorem plan_follows {s : Stmt} {span : Span} {targets values : List Expr} {op : AssignOp}
    (fits : s.SimplyFits u) (expanded : s.expand = .assign span targets op values)
    (names : s.expand.names ⊆ N) (h : r.plan c span targets op values temps = .ok (p, temps')) :
    p.Follows S N s.names (s.WritesField u) rounds (Step.exec S.source call rounds s) := by
  have names : ∀ e ∈ targets ++ values, e.names ⊆ N := by
    rw [expanded] at names
    obtain ⟨ht, hv⟩ := List.append_subset.1 names
    exact List.forall_mem_append.2 ⟨fun e he => List.Subset.trans (subset_of_mem he) ht,
      fun e he => List.Subset.trans (subset_of_mem he) hv⟩
  cases s with
  | assign at_ written op' given =>
    cases op' with
    | assign =>
      obtain ⟨rfl, rfl, rfl, rfl⟩ := Stmt.assign.inj expanded
      exact planAssign_follows rounds sound agrees covers fits names h
    | define =>
      obtain ⟨rfl, rfl, rfl, rfl⟩ := Stmt.assign.inj expanded
      simp only [plan, Redirecting.ok_bind, Redirecting.ok_lift, Redirecting.ok_pure] at h
      obtain ⟨vs, _, ⟨hv, rfl⟩, rfl, rfl⟩ := h
      refine .kept rfl ?_
      refine .bind (Step.evalFor_simulates sound agrees _ hv fits.1 fun e he =>
        names e (List.mem_append_right _ he)) fun maps vs vs' _ alike => ?_
      refine .bind (Step.defineTargets_simulates (fun x hx => ?_) alike) fun _ _ _ _ _ =>
        .pure fun _ _ => ⟨rfl, rfl⟩
      exact (agrees default default default).receiver ▸ (fits.2 x hx).receiver
    | compound op =>
      obtain ⟨arithmetic, fits⟩ := fits
      have repeatable : Stmt.areRepeatable written = true := List.all_eq_true.2 fun e he =>
        Expr.isCallFree_of_fits e (fits e (List.mem_append_left _ he))
      rw [Stmt.expand, if_pos repeatable] at expanded
      obtain ⟨rfl, rfl, rfl, rfl⟩ := Stmt.assign.inj expanded
      -- Anything but one target and one value fails.
      rcases written with _ | ⟨target, _ | ⟨_, _⟩⟩
      · exact .never ⟨fun _ run => (Exec.ok_fail.1 (Step.ok_lift.1 run).1).elim⟩
      · rcases given with _ | ⟨value, _ | ⟨_, _⟩⟩
        · exact .never ⟨fun _ run => (Exec.ok_fail.1 (Step.ok_lift.1 run).1).elim⟩
        · rw [Step.exec, Step.assign, ← Step.eval_asOperandOf]
          exact (update_follows rounds sound agrees covers arithmetic
            ⟨fits _ (by simp), (Expr.fits_asOperandOf ..).2 (fits _ (by simp))⟩
            (by simpa [Stmt.expandCompound, Expr.names] using names) h).mono
            (by simp [Stmt.names, namesOfExprs, Expr.names_asOperandOf])
            fun field => ⟨target, List.mem_singleton_self _, field⟩
        · exact .never ⟨fun _ run => (Exec.ok_fail.1 (Step.ok_lift.1 run).1).elim⟩
      · exact .never ⟨fun _ run => (Exec.ok_fail.1 (Step.ok_lift.1 run).1).elim⟩
  | step at_ target increment =>
    rw [Stmt.expand, if_pos (Expr.isCallFree_of_fits target fits)] at expanded
    obtain ⟨rfl, rfl, rfl, rfl⟩ := Stmt.assign.inj expanded
    have fits : target.Fits u ∧ (Expr.literal at_ (.int 1)).Fits u := ⟨fits, trivial⟩
    exact (update_follows rounds sound agrees covers (BinaryOp.isArithmetic_stepOp increment) fits
      ⟨names _ (by simp), by simp [Expr.names]⟩ h).mono (by simp [Stmt.names, Expr.names]) id
  | empty => cases expanded
  | expr => cases expanded
  | _ => exact fits.elim

variable (call) in
-- What a header does on plain objects, what becomes of it does on wrappers.
theorem header_follows {header : Option Stmt} (fits : ∀ s ∈ header, s.SimplyFits u)
    (names : namesOfOption (Stmt.expandOption header) ⊆ N)
    (h : r.header c place (Stmt.expandOption header) temps = .ok (moved, temps')) :
    moved.Follows S N (namesOfOption header) (∃ s ∈ header, s.WritesField u) rounds
      (Step.execOption S.source call rounds header) := by
  cases header with
  | none =>
    obtain ⟨rfl, -⟩ := Redirecting.ok_pure.1 h
    exact .kept rfl rfl (.pure fun _ _ => trivial)
  | some s =>
    have fits := fits s rfl
    have planned {span : Span} {targets values : List Expr} {op : AssignOp}
        (e : s.expand = .assign span targets op values) :
        moved.Follows S N s.names (∃ t ∈ some s, Stmt.WritesField u t) rounds
          (Step.exec S.source call rounds s) := by
      rw [Stmt.expandOption, e] at h
      simp only [header, Redirecting.ok_bind, Redirecting.ok_lift] at h
      obtain ⟨p, _, hp, moves, -⟩ := h
      exact relocate_follows moves
        ((plan_follows rounds sound agrees covers fits e names hp).mono (List.Subset.refl _)
          fun field => ⟨s, rfl, field⟩)
    cases s with
    | empty span =>
      obtain ⟨rfl, -⟩ := Redirecting.ok_pure.1 h
      exact .kept rfl rfl (.pure fun _ _ => trivial)
    | expr e =>
      simp only [Stmt.expandOption, Stmt.expand, header, Redirecting.ok_bind, Redirecting.ok_lift,
        Redirecting.ok_pure] at h
      obtain ⟨v, _, ⟨hv, -⟩, rfl, -⟩ := h
      exact .kept rfl rfl (.bind (Step.evalAll_simulates sound agrees hv fits names) fun _ _ _ _ _ =>
        .pure fun _ _ => trivial)
    | assign span targets op values =>
      cases op with
      | assign => exact planned rfl
      | define => exact planned rfl
      | compound op =>
        have repeatable : Stmt.areRepeatable targets = true := List.all_eq_true.2 fun e he =>
          Expr.isCallFree_of_fits e (fits.2 e (List.mem_append_left _ he))
        exact planned (by rw [Stmt.expand, if_pos repeatable])
    | step span target increment =>
      exact planned (by rw [Stmt.expand, if_pos (Expr.isCallFree_of_fits target fits)])
    | _ => exact fits.elim

-- An initializer and what comes after it in its scope.
theorem initializer_simulates (initial : place ≠ .forPost) {init : Option Stmt}
    (fits : ∀ s ∈ init, s.SimplyFits u) (names : namesOfOption (Stmt.expandOption init) ⊆ N)
    (kinds : ∀ m, holds m = true → S.InKind m)
    (h : r.header c place (Stmt.expandOption init) temps = .ok (moved, temps')) {k k' : Step Flow}
    (hk : Step.Simulates S N base k k' (Flow.Alike S)) :
    Step.Simulates S N base
      (Step.inScope (do let _ ← Step.watchedOption S.source call rounds holds init; k))
      (Step.sequence (Step.steps S.target S.call rounds moved.before ++
        [Step.inScope (do let _ ← Step.execOption S.target S.call rounds moved.header; k')]))
      (Flow.Alike S) := by
  have follows := header_follows rounds call sound agrees covers fits names h
  have noAfter := header_after initial h
  cases init with
  | none =>
    obtain ⟨rfl, -⟩ := Redirecting.ok_pure.1 h
    change Step.Simulates S N base (Step.inScope k) (Step.sequence [Step.inScope k']) _
    rw [Step.sequence_single]
    exact .inScope hk
  | some s =>
    have watched : Step.watchedOption S.source call rounds holds (some s) = _ :=
      (fits s rfl).watched_eq S.source
    rw [watched]
    cases follows with
    | never fails =>
      refine ⟨fun _ sync run => ?_⟩
      obtain ⟨_, run, -⟩ := Step.ok_inScope.1 run
      obtain ⟨_, _, _, run, -⟩ := Step.ok_bind.1 run
      exact absurd (Step.ok_watched.1 run).1 (fails.run sync.push)
    | kept noBefore _ simulates =>
      rw [noBefore, Step.steps, List.nil_append, Step.sequence_single]
      exact .inScope (.bind ((simulates.mono (List.nil_subset _) fun _ _ _ _ h => h).of_mayStop
        (.watched _)) fun _ _ _ sub _ => hk.base_mono sub)
    | fields _ empty _ sets =>
      rw [noAfter, List.append_nil] at sets
      rw [empty]
      refine ⟨fun {depth maps f m f' m' flow f₂ m₂} sub sync run => ?_⟩
      obtain ⟨_, inner, rfl⟩ := Step.ok_inScope.1 run
      obtain ⟨_, _, m₁, watched, last⟩ := Step.ok_bind.1 inner
      obtain ⟨first, held⟩ := Step.ok_watched.1 watched
      -- The fields are set in front of the scope.
      obtain ⟨rfl, same⟩ := sets.leaves.run (f.agrees_push _) first
      obtain ⟨-, maps₁, f'₁, m'₁, sub₁, before, states⟩ := sets.run sync same
      have sync₁ : Sync S N depth maps₁ f m₁ f'₁ m'₁ := ⟨states, kinds _ held, sync.depth⟩
      obtain ⟨maps₂, flow', g', m'₂, sub₂, rest, sync₂, alike⟩ :=
        hk.run (List.Subset.trans sub sub₁) sync₁.push last
      refine ⟨maps₂, flow', g'.pop, m'₂, List.Subset.trans sub₁ sub₂, ?_, sync₂.pop, alike⟩
      rw [Step.sequence_append_of_ok before, Step.sequence_single]
      exact Step.ok_inScope.2 ⟨g', Step.ok_bind.2 ⟨.next, _, _, rfl, rest⟩, rfl⟩

end RedirectContext

end FieldAccess
