import FieldAccess.Proofs.Bindings
import FieldAccess.Proofs.FieldWrites
import FieldAccess.Proofs.PlanParts
import FieldAccess.Proofs.SteadyReads
import FieldAccess.Proofs.TemporaryNames

namespace FieldAccess

-- A variable, or an element of one at any depth. Only the last index may call.
inductive Expr.IsElement : Expr → Prop
  | var {span : Span} {x : String} : x ≠ "_" → IsElement (.ident span x)
  | paren {span : Span} {e : Expr} : IsElement e → IsElement (.paren span e)
  | item {span : Span} {base i : Expr} : IsElement base → base.isCallFree = true →
      IsElement (.index span base i)

-- The indices of an element, the last one at the end.
def Expr.indices : Expr → List Expr
  | .paren _ e => e.indices
  | .index _ base i => base.indices ++ [i]
  | _ => []

-- A variable, or an item in one.
inductive Place.IsElement (N : List String) : Place → Prop
  | var {x : String} : x ∈ N → IsElement N (.named x)
  | item {c : Place} {i : Value} : IsElement N c → IsElement N (.item c i)

theorem Expr.IsElement.isCallFree_indices {e : Expr} (h : e.IsElement)
    (free : e.isCallFree = true) : ∀ i ∈ e.indices, i.isCallFree = true := by
  induction h with
  | var => exact List.forall_mem_nil _
  | paren _ ih => exact ih free
  | item _ freeBase ih =>
    intro i hi
    rcases List.mem_append.1 hi with hi | hi
    · exact ih freeBase i hi
    · exact List.mem_singleton.1 hi ▸ (Bool.and_eq_true_iff.1 free).2

-- A target as it would be written if all fields were ordinary ones.
def Target.written (span : Span) : Target → Expr
  | .blank => .ident span "_"
  | .plain place => place
  | .field receiver info => .select span receiver info.name

-- What the place of a target depends on.
def Target.operands : Target → List Expr
  | .blank => []
  | .plain place => place.indices
  | .field receiver _ => [receiver]

-- Whether a value stays where it stands, instead of being bound.
def Target.keepsValue (inPlace : Bool) (v : TypedExpr) : Target → Bool
  | .blank => inPlace || v.expr.isCallFree
  | .plain _ => inPlace || v.isConstant
  | .field _ _ => v.isConstant

-- The place of a target is of this kind.
def Target.Suits (N : List String) : Target → Place → Prop
  | .blank, q => q = .blank
  | .plain _, q => q.IsElement N
  | .field _ _, q => q.isField = true

-- The same maps, records and package variables.
structure Machine.SameButObjects (m n : Machine) : Prop where
  maps : m.maps = n.maps
  records : m.records = n.records
  globals : m.globals = n.globals

theorem Frame.get?_assign_self {f : Frame} {x : String} {v : Value} (h : f.get? x = some v)
    (u : Value) : (f.assign x u).get? x = some u := by
  obtain ⟨scopes⟩ := f
  simp only [get?, assign] at h ⊢
  induction scopes with
  | nil => cases h
  | cons scope rest ih =>
    rw [List.findSome?_cons] at h
    rw [assignIn, Table.contains]
    cases held : scope.get? x with
    | none =>
      rw [held] at h
      simp [held, ih h]
    | some _ => simp

theorem Frame.Agrees.assign {N : List String} {f f' : Frame} (h : f.Agrees N f') {x : String}
    {v : Value} (hx : x ∈ N) (held : f.get? x = some v) (u : Value) :
    (f.assign x u).Agrees N (f'.assign x u) := by
  intro y hy
  by_cases e : y = x
  · subst e
    rw [get?_assign_self held, get?_assign_self ((h y hx).trans held)]
  · rw [get?_assign_of_ne _ e, get?_assign_of_ne _ e, h y hy]

-- Variables that hold values.
def Frame.Holds (f : Frame) (names : List String) (vs : List Value) : Prop :=
  ∀ e ∈ names.zip vs, e.1 ≠ "_" → f.get? e.1 = some e.2

theorem Frame.holds_append {f : Frame} {names names' : List String} {vs vs' : List Value}
    (length : names.length = vs.length) :
    f.Holds (names ++ names') (vs ++ vs') ↔ f.Holds names vs ∧ f.Holds names' vs' := by
  rw [Frame.Holds, List.zip_append length, List.forall_mem_append]
  rfl

theorem Frame.holds_cons {f : Frame} {name : String} {names : List String} {v : Value}
    {vs : List Value} : f.Holds (name :: names) (v :: vs) ↔
      (name ≠ "_" → f.get? name = some v) ∧ f.Holds names vs :=
  List.forall_mem_cons

namespace Place

variable {α : Type} {p : Program} {call : CallHandler} {f f₁ f' : Frame} {N : List String} {e : Expr}
  {m m₁ n : Machine} {q : Place}

theorem holder_element (h : e.IsElement) : holder p call f e = resolve p call f e := by
  rw [holder, if_pos]
  cases h <;> rfl

theorem resolve_index_element {span : Span} {base i : Expr} (h : base.IsElement) :
    resolve p call f (.index span base i) = resolve p call f base >>= fun c =>
      Exec.eval p call f i >>= fun v => pure (.item c v) := by
  rw [resolve_index, holder_element h]

-- The place of an element depends on its indices alone.
theorem resolve_steady {R : Machine → Machine → Prop} (h : e.IsElement)
    (steady : ∀ i ∈ e.indices, Exec.Steady R (Exec.eval p call f i)) :
    Exec.Steady R (resolve p call f e) := by
  induction h with
  | var =>
    rw [resolve]
    exact .pure _
  | paren _ ih =>
    rw [resolve]
    exact ih steady
  | item hb _ ih =>
    rw [resolve_index_element hb]
    refine .bind (ih fun i hi => steady i (List.mem_append_left _ hi)) fun c => ?_
    exact .bind (steady _ (List.mem_append_right _ (List.mem_singleton_self _))) fun v => .pure _

theorem isElement_of_resolve (h : e.IsElement) (sub : e.names ⊆ N)
    (run : resolve p call f e m = .ok q m₁) : q.IsElement N := by
  induction h generalizing m m₁ q with
  | var named =>
    rw [resolve, if_neg named] at run
    obtain ⟨rfl, rfl⟩ := Exec.ok_pure.1 run
    exact .var (sub (List.mem_singleton_self _))
  | paren _ ih =>
    rw [resolve] at run
    exact ih sub run
  | item hb _ ih =>
    rw [resolve_index_element hb] at run
    obtain ⟨c, _, base, run⟩ := Exec.ok_bind.1 run
    obtain ⟨v, _, _, run⟩ := Exec.ok_bind.1 run
    obtain ⟨rfl, rfl⟩ := Exec.ok_pure.1 run
    exact .item (ih (List.append_subset.1 sub).1 base)

-- What does not depend on objects.
structure Access.Plain (g : Access α) : Prop where
  run : ∀ {v m n a u m₁}, m.SameButObjects n → g v m = .ok (a, u) m₁ →
    ∃ n₁, g v n = .ok (a, u) n₁ ∧ m₁.SameButObjects n₁

theorem Access.Plain.item {g : Access α} (h : g.Plain) (i : Value) : (accessItem i g).Plain := by
  refine ⟨fun {v m n a u m₁} same run => ?_⟩
  cases v with
  | slice items =>
    obtain ⟨k, _, look, run⟩ := Exec.ok_bind.1 run
    obtain ⟨hk, rfl⟩ := Exec.ok_orFail.1 look
    cases hp : Value.position? k items.length with
    | none =>
      rw [hp] at run
      exact (Exec.ok_fail.1 run).elim
    | some position =>
      rw [hp] at run
      obtain ⟨⟨b, w⟩, m₂, got, put⟩ := Exec.ok_bind.1 run
      obtain ⟨e, rfl⟩ := Exec.ok_pure.1 put
      obtain ⟨n₂, got', same'⟩ := h.run same got
      refine ⟨n₂, Exec.ok_bind.2 ⟨k, n, Exec.ok_orFail.2 ⟨hk, rfl⟩, ?_⟩, same'⟩
      rw [hp]
      exact Exec.ok_bind.2 ⟨(b, w), n₂, got', Exec.ok_pure.2 ⟨e, rfl⟩⟩
  | map address =>
    obtain ⟨key, _, look, run⟩ := Exec.ok_bind.1 run
    obtain ⟨hk, rfl⟩ := Exec.ok_orFail.1 look
    rw [Exec.get_bind] at run
    obtain ⟨⟨b, w⟩, m₂, got, put⟩ := Exec.ok_bind.1 run
    obtain ⟨_, _, set, put⟩ := Exec.ok_bind.1 put
    obtain ⟨e, rfl⟩ := Exec.ok_pure.1 put
    obtain rfl := Exec.ok_modify.1 set
    obtain ⟨n₂, got', same'⟩ := h.run same got
    refine ⟨n₂.setMap address ((n₂.map address).insert key w), ?_, ?_⟩
    · refine Exec.ok_bind.2 ⟨key, n, Exec.ok_orFail.2 ⟨hk, rfl⟩, ?_⟩
      rw [Exec.get_bind, Machine.map, ← same.maps]
      exact Exec.ok_bind.2 ⟨(b, w), n₂, got', Exec.ok_bind.2 ⟨(), _, Exec.ok_modify.2 rfl,
        Exec.ok_pure.2 ⟨e, rfl⟩⟩⟩
    · refine ⟨?_, same'.records, same'.globals⟩
      simp only [Machine.setMap, Machine.map, same'.maps]
  | nil => exact (Exec.ok_fail.1 run).elim
  | _ => exact (Exec.ok_failType.1 run).elim

-- Access to an element comes to the same where the variables are the same.
theorem IsElement.access (hq : q.IsElement N) {g : Access α} (hg : g.Plain)
    (agrees : f.Agrees N f') (same : m.SameButObjects n) {a : α}
    (run : q.access g f m = .ok (a, f₁) m₁) :
    ∃ f'₁ n₁, q.access g f' n = .ok (a, f'₁) n₁ ∧ f₁.Agrees N f'₁ ∧ m₁.SameButObjects n₁ := by
  induction hq generalizing α with
  | item _ ih => exact ih (hg.item _) run
  | @var x hx =>
    rcases ok_access_named.1 run with ⟨v, u, held, got, rfl⟩ |
        ⟨v, u, m₂, held, global, got, rfl, rfl⟩
    · obtain ⟨n₁, got', same'⟩ := hg.run same got
      exact ⟨_, n₁, ok_access_named.2 (.inl ⟨v, u, (agrees x hx).trans held, got', rfl⟩),
        agrees.assign hx held u, same'⟩
    · obtain ⟨n₁, got', same'⟩ := hg.run same got
      refine ⟨f', n₁.setGlobal x u, ok_access_named.2 (.inr ⟨v, u, n₁, (agrees x hx).trans held,
        same.globals ▸ global, got', rfl, rfl⟩), agrees, same'.maps, same'.records, ?_⟩
      simp only [Machine.setGlobal, same'.globals]

end Place

namespace Exec

variable {p : Program} {call : CallHandler} {f : Frame} {m m₁ m₂ : Machine}

theorem ok_all_append {es es' : List Expr} {vs vs' : List Value}
    (run : all (actions p call f es) m = .ok vs m₁)
    (run' : all (actions p call f es') m₁ = .ok vs' m₂) :
    all (actions p call f (es ++ es')) m = .ok (vs ++ vs') m₂ := by
  induction es generalizing m vs with
  | nil =>
    obtain ⟨rfl, rfl⟩ := ok_pure.1 run
    exact run'
  | cons e es ih =>
    obtain ⟨v, m₃, first, run⟩ := ok_bind.1 run
    obtain ⟨us, m₄, rest, run⟩ := ok_bind.1 run
    obtain ⟨rfl, rfl⟩ := ok_pure.1 run
    exact ok_bind.2 ⟨v, m₃, first, ok_bind.2 ⟨us ++ vs', m₂, ih rest, rfl⟩⟩

-- A variable whose value is known.
theorem eval_of_get? {name : String} {v : Value} (held : f.get? name = some v) (span : Span) :
    eval p call f (.ident span name) m = .ok v m := by
  refine ok_eval_ident.2 ⟨?_, rfl⟩
  rw [Frame.var?, held]
  rfl

end Exec

section

variable {p : Program} {call : CallHandler} {f : Frame} {N : List String} {es : List Expr}
  {span : Span} {m m₁ m₂ : Machine}

-- Evaluating what is captured leads from one machine to another. Afterwards, at any time, something
-- holds wherever the variables have these values and all others still have theirs.
structure Captured.Yields (p : Program) (call : CallHandler) (f : Frame) (N : List String)
    (es : List Expr) (c : Captured) (m m₁ : Machine) (P : Frame → Machine → Prop) : Prop where
  reaches : Exec.Reaches p call f es m m₁
  held : ∃ ws, Exec.all (Exec.actions p call f c.values) m = .ok ws m₁ ∧
    c.names.length = ws.length ∧ ∀ {f' m'}, f.Agrees N f' → f'.Holds c.names ws →
      Exec.Reaches p call f es m₁ m' → P f' m'

namespace Captured.Yields

variable {c c' : Captured} {P Q : Frame → Machine → Prop} {e : Expr} {v : Value} {name : String}

theorem nothing (h : ∀ {f' m'}, f.Agrees N f' → Exec.Reaches p call f es m m' → P f' m') :
    Yields p call f N es {} m m P :=
  ⟨.refl _, [], rfl, rfl, fun agrees _ later => h agrees later⟩

theorem single (mem : e ∈ es) (run : Exec.eval p call f e m = .ok v m₁)
    (h : ∀ {f' m'}, f.Agrees N f' → (name ≠ "_" → f'.get? name = some v) →
      Exec.Reaches p call f es m₁ m' → P f' m') :
    Yields p call f N es ⟨[name], [e]⟩ m m₁ P :=
  ⟨.eval mem run, [v], Exec.ok_bind.2 ⟨v, m₁, run, rfl⟩, rfl,
    fun agrees holds later => h agrees (Frame.holds_cons.1 holds).1 later⟩

theorem append (h : Yields p call f N es c m m₁ P) (h' : Yields p call f N es c' m₁ m₂ Q) :
    Yields p call f N es (c ++ c') m m₂ fun f' m' => P f' m' ∧ Q f' m' := by
  obtain ⟨reaches, ws, run, length, held⟩ := h
  obtain ⟨reaches', ws', run', length', held'⟩ := h'
  refine ⟨reaches.trans reaches', ws ++ ws', Exec.ok_all_append run run', ?_, ?_⟩
  · rw [append_names, List.length_append, List.length_append, length, length']
  · intro f' m' agrees holds later
    obtain ⟨first, second⟩ := (Frame.holds_append length).1 holds
    exact ⟨held agrees first (reaches'.trans later), held' agrees second later⟩

theorem mono (h : Yields p call f N es c m m₁ P) (imp : ∀ f' m', P f' m' → Q f' m') :
    Yields p call f N es c m m₁ Q := by
  obtain ⟨reaches, ws, run, length, held⟩ := h
  exact ⟨reaches, ws, run, length, fun agrees holds later => imp _ _ (held agrees holds later)⟩

-- What stays where it stands is evaluated later, to the same.
theorem stays (sub : e.names ⊆ N)
    (fixed : Exec.Steady (Exec.Reaches p call f es) (Exec.eval p call f e))
    (run : Exec.eval p call f e m = .ok v m₁) :
    Yields p call f N es {} m m₁ fun f' m' => Exec.eval p call f' e m' = .ok v m' := by
  obtain rfl := fixed.reads run
  refine nothing fun agrees later => ?_
  rw [Exec.eval_agrees agrees e sub]
  exact fixed.after later run

end Captured.Yields

-- A target that an assignment may have: a field, or an element of a variable whose standing
-- operands give the same whatever the assignment evaluates.
structure Target.Steady (p : Program) (call : CallHandler) (f : Frame) (N : List String)
    (es : List Expr) (t : Target) : Prop where
  element : ∀ {place}, t = .plain place → place.IsElement ∧ place.names ⊆ N
  steady : ∀ {place}, t = .plain place → ∀ i ∈ place.indices, i.isCallFree = true →
    Exec.Steady (Exec.Reaches p call f es) (Exec.eval p call f i)

-- The place that a target denotes once its operands are bound.
def Target.At (p : Program) (call : CallHandler) (q : Place) (t : Target) (f : Frame)
    (m : Machine) : Prop :=
  ∀ place, t = .plain place → Place.resolve p call f place m = .ok q m

theorem Target.at_of_not_plain {t : Target} (h : t.isPlain = false) (q : Place) (f : Frame)
    (m : Machine) : t.At p call q f m := by
  rintro place rfl
  cases h

-- What calls in the place of an element is its last index, which is bound.
theorem capturePlace_element (span : Span) {e : Expr} (h : e.IsElement)
    (calls : e.isCallFree = false) (s : Temporaries) : ∃ at_ base i name,
      base.IsElement ∧ base.isCallFree = true ∧
      base.indices ⊆ e.indices ∧ i ∈ e.indices ∧ e.names = base.names ++ i.names ∧ name ≠ "_" ∧
      (capturePlace span e s).1 = (.index at_ base (.ident span name), ⟨[name], [i]⟩) ∧
      ∀ p call f, Place.resolve p call f e = Place.resolve p call f base >>= fun c =>
        Exec.eval p call f i >>= fun v => pure (.item c v) := by
  induction h with
  | var => cases calls
  | @paren at_ e _ ih =>
    obtain ⟨at_, base, i, name, h⟩ := ih calls
    refine ⟨at_, base, i, name, ?_⟩
    simpa only [Expr.indices, Expr.names, capturePlace, Place.resolve] using h
  | @item at_ base i hb free _ =>
    have calling : i.isCallFree = false := by
      simpa only [Expr.isCallFree, free, Bool.true_and] using calls
    refine ⟨at_, base, i, (Temporaries.fresh i.nameHint s).1, hb, free,
      List.subset_append_left _ _, List.mem_append_right _ (List.mem_singleton_self _), rfl, ?_, ?_,
      fun p call f => Place.resolve_index_element hb⟩
    · exact ((Draws.fresh_name i.nameHint).fresh s _ (List.mem_singleton_self _)).2
    · simp only [capturePlace, captureCalling, if_pos free, calling]
      rfl

theorem eval_of_isStable {written : List String} {e : Expr} {v : Value}
    (h : e.isStable written = true) (run : Exec.eval p call f e m = .ok v m₁) : m₁ = m := by
  induction e using Expr.isStable.induct with
  | case1 => exact (Exec.ok_eval_ident.1 run).2.symm
  | case2 _ inner ih =>
    rw [Exec.eval] at run
    exact ih h run
  | case3 e _ _ => cases e <;> simp_all [Expr.isStable]

-- What is bound for a target is what its place evaluates and calls, and with that bound the place
-- is the one that the target denotes, at any later time.
theorem captureTarget_run {t : Target} (steady : t.Steady p call f N es)
    (operands : t.operands ⊆ es) {written : List String} {places : Bool}
    (covered : ∀ place, t = .plain place → places = true ∨ place.isCallFree = true)
    (s : Temporaries) {q : Place} (run : Place.resolve p call f (t.written span) m = .ok q m₁) :
    let out := (captureTarget span written places t s).1
    out.1.Suits N q ∧ out.2.Yields p call f N es m m₁ (out.1.At p call q) := by
  intro out
  cases t with
  | blank =>
    obtain ⟨rfl, rfl⟩ := Exec.ok_pure.1 run
    exact ⟨rfl, .nothing fun _ _ => Target.at_of_not_plain rfl _ _ _⟩
  | field receiver info =>
    rw [Target.written, Place.resolve] at run
    obtain ⟨v, m₂, evaluated, run⟩ := Exec.ok_bind.1 run
    have isField : m₂ = m₁ ∧ q.isField = true := by
      cases v with
      | object => exact ⟨(Exec.ok_pure.1 run).2, (Exec.ok_pure.1 run).1 ▸ rfl⟩
      | _ => exact (Exec.ok_fail.1 run).elim
    obtain ⟨rfl, isField⟩ := isField
    simp only [out, captureTarget]
    split
    case isTrue stable =>
      obtain rfl := eval_of_isStable stable evaluated
      exact ⟨isField, .nothing fun _ _ => Target.at_of_not_plain rfl _ _ _⟩
    case isFalse =>
      exact ⟨isField, .single (operands (List.mem_singleton_self _)) evaluated
        fun _ _ _ => Target.at_of_not_plain rfl _ _ _⟩
  | plain place =>
    obtain ⟨element, sub⟩ := steady.element rfl
    have isElement := Place.isElement_of_resolve element sub run
    by_cases free : place.isCallFree = true
    · have stands : out = (.plain place, {}) := by
        simp only [out, captureTarget, free, Bool.not_true, Bool.and_false, if_false,
          Bool.false_eq_true]
        rfl
      have fixed := Place.resolve_steady (p := p) element fun i hi =>
        steady.steady rfl i hi (element.isCallFree_indices free i hi)
      obtain rfl := fixed.reads run
      rw [stands]
      refine ⟨isElement, .nothing fun agrees later place' e => ?_⟩
      obtain rfl := Target.plain.inj e
      rw [Place.resolve_agrees agrees _ sub]
      exact fixed.after later run
    · have calls : place.isCallFree = false := Bool.eq_false_iff.2 free
      have captures : places = true := (covered place rfl).resolve_right free
      obtain ⟨at_, base, i, name, hb, freeBase, subIndices, hi, names, named, made, resolves⟩ :=
        capturePlace_element span element calls s
      have out_eq : out = (.plain (.index at_ base (.ident span name)), ⟨[name], [i]⟩) := by
        simp only [out, captureTarget, captures, calls]
        exact congrArg (fun r : Expr × Captured => (Target.plain r.1, r.2)) made
      have fixed := Place.resolve_steady (p := p) hb fun j hj =>
        steady.steady rfl j (subIndices hj) (hb.isCallFree_indices freeBase j hj)
      have run : Place.resolve p call f place m = .ok q m₁ := run
      rw [resolves] at run
      obtain ⟨c, m₂, base_run, run⟩ := Exec.ok_bind.1 run
      obtain ⟨v, m₃, evaluated, run⟩ := Exec.ok_bind.1 run
      obtain ⟨rfl, rfl⟩ := Exec.ok_pure.1 run
      obtain rfl := fixed.reads base_run
      have calling := operands hi
      rw [out_eq]
      refine ⟨isElement, .single calling evaluated fun agrees held later place' e => ?_⟩
      obtain rfl := Target.plain.inj e
      rw [Place.resolve_index_element hb, Place.resolve_agrees agrees _
        (fun x hx => sub (names ▸ List.mem_append_left _ hx))]
      have again := fixed.after ((Exec.Reaches.eval calling evaluated).trans later) base_run
      exact Exec.ok_bind.2 ⟨c, _, again, Exec.ok_bind.2
        ⟨v, _, Exec.eval_of_get? (held named) span, rfl⟩⟩

theorem captureTarget_keepsValue (written : List String) (places inPlace : Bool) (t : Target)
    (v : TypedExpr) (s : Temporaries) :
    (captureTarget span written places t s).1.1.keepsValue inPlace v = t.keepsValue inPlace v := by
  cases t with
  | blank => rfl
  | plain | field =>
    rw [captureTarget]
    split <;> rfl

-- The same for all targets of an assignment.
theorem captureTargets_run {ts : List Target} {operands : List (Target × Captured)}
    {written : List String} {places : Bool} (steady : ∀ t ∈ ts, t.Steady p call f N es)
    (evaluated : ts.flatMap Target.operands ⊆ es)
    (covered : ∀ place, .plain place ∈ ts → places = true ∨ place.isCallFree = true)
    (made : List.Forall₂ (fun t out => ∃ s, (captureTarget span written places t s).1 = out) ts
      operands) {qs : List Place}
    (run : Place.resolveEach p call f (ts.map (Target.written span)) m = .ok qs m₁) :
    List.Forall₂ (Target.Suits N) (operands.map (·.1)) qs ∧
      Captured.Yields p call f N es
        ⟨operands.flatMap (·.2.names), operands.flatMap (·.2.values)⟩ m m₁ fun f' m' =>
          List.Forall₂ (fun t q => t.At p call q f' m') (operands.map (·.1)) qs := by
  induction made generalizing m qs with
  | nil =>
    obtain ⟨rfl, rfl⟩ := Exec.ok_pure.1 run
    exact ⟨.nil, .nothing fun _ _ => .nil⟩
  | @cons t out ts operands head _ ih =>
    obtain ⟨s, rfl⟩ := head
    rw [List.map_cons, Place.resolveEach] at run
    obtain ⟨q, m₂, first, run⟩ := Exec.ok_bind.1 run
    obtain ⟨qs, m₃, rest, run⟩ := Exec.ok_bind.1 run
    obtain ⟨rfl, rfl⟩ := Exec.ok_pure.1 run
    obtain ⟨operands₁, operands₂⟩ := List.append_subset.1 evaluated
    obtain ⟨suits, yields⟩ := captureTarget_run (steady t (List.mem_cons_self ..)) operands₁
      (fun place e => covered place (e ▸ List.mem_cons_self ..)) s first
    obtain ⟨suits', yields'⟩ := ih (fun t ht => steady t (List.mem_cons_of_mem _ ht)) operands₂
      (fun place hp => covered place (List.mem_cons_of_mem _ hp)) rest
    exact ⟨.cons suits suits', (yields.append yields').mono fun _ _ h => .cons h.1 h.2⟩

-- What is left of a value in the plain part is evaluated to it.
def TargetPlan.Gives (p : Program) (call : CallHandler) (u : Value) (part : TargetPlan) (f : Frame)
    (m : Machine) : Prop :=
  ∀ place value, part.plain = some (place, value) → Exec.eval p call f value m = .ok u m

theorem TargetPlan.gives_of_none {part : TargetPlan} (h : part.plain = none) (u : Value)
    (f : Frame) (m : Machine) : part.Gives p call u f m := by
  intro place value e
  cases h.symm.trans e

theorem captureValue_run {hint : String} {v : TypedExpr} (mem : v.expr ∈ es)
    (sub : v.expr.names ⊆ N) (steady : v.isConstant = true →
      Exec.Steady (Exec.Reaches p call f es) (Exec.eval p call f v.expr))
    (s : Temporaries) {u : Value} (run : Exec.eval p call f v.expr m = .ok u m₁) :
    let out := (captureValue span hint (some v) s).1
    out.2.Yields p call f N es m m₁ fun f' m' => Exec.eval p call f' out.1.expr m' = .ok u m' := by
  intro out
  simp only [out, captureValue]
  split
  case isTrue constant => exact .stays sub (steady constant) run
  case isFalse =>
    have named := ((Draws.fresh_name hint).fresh s _ (List.mem_singleton_self _)).2
    exact .single mem run fun _ held _ => Exec.eval_of_get? (held named) span

theorem planTarget_run (settings : Settings) (span : Span) {inPlace : Bool} {t : Target}
    {v : TypedExpr} (mem : v.expr ∈ es) (sub : v.expr.names ⊆ N)
    (steady : t.keepsValue inPlace v = true →
      Exec.Steady (Exec.Reaches p call f es) (Exec.eval p call f v.expr))
    (s : Temporaries) {u : Value} (run : Exec.eval p call f v.expr m = .ok u m₁) :
    let part := (planTarget settings span inPlace t (some v) s).1
    part.captured.Yields p call f N es m m₁ (part.Gives p call u) := by
  intro part
  cases t with
  | field receiver info =>
    simp only [part, planTarget_field]
    exact (captureValue_run mem sub steady s run).mono fun _ _ _ =>
      TargetPlan.gives_of_none rfl _ _ _
  | plain place =>
    simp only [part, planTarget_plain]
    cases inPlace with
    | false =>
      refine (captureValue_run mem sub steady s run).mono fun _ _ h place value e => ?_
      obtain ⟨-, rfl⟩ := Prod.mk.inj (Option.some.inj e)
      exact h
    | true =>
      refine (Captured.Yields.stays sub (steady rfl) run).mono fun _ _ h place value e => ?_
      obtain ⟨-, rfl⟩ := Prod.mk.inj (Option.some.inj e)
      exact h
  | blank =>
    simp only [part, planTarget_blank]
    cases inPlace with
    | true =>
      refine (Captured.Yields.stays sub (steady rfl) run).mono fun _ _ h place value e => ?_
      obtain ⟨-, rfl⟩ := Prod.mk.inj (Option.some.inj e)
      exact h
    | false =>
      by_cases free : v.expr.isCallFree = true
      · simp only [discard, if_pos free]
        exact (Captured.Yields.stays sub (steady free) run).mono fun _ _ _ =>
          TargetPlan.gives_of_none rfl _ _ _
      · simp only [discard, if_neg free]
        exact .single mem run fun _ _ _ => TargetPlan.gives_of_none rfl _ _ _

-- What is evaluated for the values of all targets.
theorem planPairs_run (settings : Settings) (span : Span) (inPlace : Bool) {ts : List Target}
    {vs : List TypedExpr} (paired : ts.length = vs.length)
    (mem : ∀ v ∈ vs, v.expr ∈ es ∧ v.expr.names ⊆ N)
    (steady : ∀ e ∈ ts.zip vs, e.1.keepsValue inPlace e.2 = true →
      Exec.Steady (Exec.Reaches p call f es) (Exec.eval p call f e.2.expr))
    (s : Temporaries) {us : List Value}
    (run : Exec.all (Exec.actions p call f (vs.map (·.expr))) m = .ok us m₁) :
    let parts := (planPairs settings span inPlace (ts.zip (vs.map some)) s).1
    Captured.Yields p call f N es
      ⟨parts.flatMap (·.captured.names), parts.flatMap (·.captured.values)⟩ m m₁ fun f' m' =>
        List.Forall₂ (fun part u => part.Gives p call u f' m') parts us := by
  induction ts generalizing vs s m us with
  | nil =>
    obtain rfl := List.length_eq_zero_iff.1 paired.symm
    obtain ⟨rfl, rfl⟩ := Exec.ok_pure.1 run
    exact .nothing fun _ _ => .nil
  | cons t ts ih =>
    obtain _ | ⟨v, vs⟩ := vs
    · cases paired
    · obtain ⟨u, m₂, first, run⟩ := Exec.ok_bind.1 run
      obtain ⟨us, m₃, rest, run⟩ := Exec.ok_bind.1 run
      obtain ⟨rfl, rfl⟩ := Exec.ok_pure.1 run
      obtain ⟨mem₁, sub₁⟩ := mem v (List.mem_cons_self ..)
      have yields := planTarget_run settings span mem₁ sub₁
        (steady (t, v) (List.mem_cons_self ..)) s first
      have yields' := ih (Nat.succ.inj paired) (fun v hv => mem v (List.mem_cons_of_mem _ hv))
        (fun e he => steady e (List.mem_cons_of_mem _ he))
        (planTarget settings span inPlace t (some v) s).2 rest
      simp only [List.map_cons, List.zip_cons_cons, planPairs_cons]
      exact (yields.append yields').mono fun _ _ h => .cons h.1 h.2

-- A target whose value comes with those of the others has one variable for it.
theorem planTarget_given (p : Program) (call : CallHandler) (settings : Settings) (span : Span)
    (t : Target) (s : Temporaries) :
    let part := (planTarget settings span false t none s).1
    ∃ name, part.captured.names = [name] ∧ ∀ {f' : Frame} {m' : Machine} {u : Value},
      (name ≠ "_" → f'.get? name = some u) → part.Gives p call u f' m' := by
  cases t with
  | blank => exact ⟨"_", rfl, fun _ => TargetPlan.gives_of_none rfl _ _ _⟩
  | field receiver info => exact ⟨_, rfl, fun _ => TargetPlan.gives_of_none rfl _ _ _⟩
  | plain place =>
    have named := ((Draws.fresh_name place.nameHint).fresh s _ (List.mem_singleton_self _)).2
    refine ⟨_, rfl, fun held place' value e => ?_⟩
    obtain ⟨-, rfl⟩ := Prod.mk.inj (Option.some.inj e)
    exact Exec.eval_of_get? (held named) span

theorem planPairs_given (p : Program) (call : CallHandler) (settings : Settings) (span : Span)
    {ts : List Target} (s : Temporaries) {us : List Value} (length : ts.length = us.length) :
    let parts := (planPairs settings span false (ts.zip (ts.map fun _ => none)) s).1
    (parts.flatMap (·.captured.names)).length = us.length ∧
      ∀ {f' : Frame} {m' : Machine}, f'.Holds (parts.flatMap (·.captured.names)) us →
        List.Forall₂ (fun part u => part.Gives p call u f' m') parts us := by
  induction ts generalizing us s with
  | nil =>
    obtain rfl := List.length_eq_zero_iff.1 length.symm
    exact ⟨rfl, fun _ => .nil⟩
  | cons t ts ih =>
    obtain _ | ⟨u, us⟩ := us
    · cases length
    · obtain ⟨name, names, given⟩ :=
        planTarget_given p call settings span t s
      obtain ⟨rest, given'⟩ := ih (planTarget settings span false t none s).2 (Nat.succ.inj length)
      simp only [List.map_cons, List.zip_cons_cons, planPairs_cons, List.flatMap_cons, names,
        List.singleton_append, List.length_cons]
      refine ⟨congrArg (· + 1) rest, fun holds => ?_⟩
      obtain ⟨head, tail⟩ := Frame.holds_cons.1 holds
      exact .cons (given head) (given' tail)

end

end FieldAccess
