import FieldAccess.Proofs.Vocabulary

namespace FieldAccess

theorem forall_mem_some {α : Type} {P : α → Prop} {a : α} (h : P a) : ∀ b ∈ some a, P b := by
  rintro _ ⟨⟩
  exact h

theorem forall_mem_none {α : Type} {P : α → Prop} : ∀ a ∈ (none : Option α), P a :=
  nofun

namespace Temporaries

-- Whatever a computation draws, the names that are out of use keep a property, and its result has
-- one.
def Ensures {α : Type} (used : List String → Prop) (x : StateM Temporaries α) (P : α → Prop) : Prop :=
  ∀ s : Temporaries, used s.taken → used (x s).2.taken ∧ P (x s).1

namespace Ensures

variable {α β : Type} {used : List String → Prop} {P : α → Prop} {Q : β → Prop}

theorem pure {a : α} (h : P a) : Ensures used (pure a) P :=
  fun _ sub => ⟨sub, h⟩

theorem bind {x : StateM Temporaries α} {f : α → StateM Temporaries β} (hx : Ensures used x P)
    (hf : ∀ a, P a → Ensures used (f a) Q) : Ensures used (x >>= f) Q := fun s sub =>
  have ⟨kept, h⟩ := hx s sub
  hf _ h _ kept

theorem mapM {f : α → StateM Temporaries β} {l : List α} (h : ∀ a ∈ l, Ensures used (f a) Q) :
    Ensures used (l.mapM f) (∀ b ∈ ·, Q b) := by
  induction l with
  | nil => exact pure (List.forall_mem_nil _)
  | cons a l ih =>
    obtain ⟨first, rest⟩ := List.forall_mem_cons.1 h
    rw [List.mapM_cons]
    exact bind first fun b hb => bind (ih rest) fun bs hbs => pure (List.forall_mem_cons.2 ⟨hb, hbs⟩)

end Ensures

end Temporaries

namespace Redirecting

def Ensures {α : Type} (used : List String → Prop) (x : Redirecting α) (P : α → Prop) : Prop :=
  ∀ s a s', used s.taken → x s = .ok (a, s') → used s'.taken ∧ P a

namespace Ensures

variable {α β : Type} {used : List String → Prop} {P : α → Prop} {Q : β → Prop}

theorem pure {a : α} (h : P a) : Ensures used (pure a) P := by
  intro s b s' sub run
  obtain ⟨rfl, rfl⟩ := Redirecting.ok_pure.1 run
  exact ⟨sub, h⟩

theorem bind {x : Redirecting α} {f : α → Redirecting β} (hx : Ensures used x P)
    (hf : ∀ a, P a → Ensures used (f a) Q) : Ensures used (x >>= f) Q := by
  intro s b s' sub run
  obtain ⟨a, s₁, first, second⟩ := Redirecting.ok_bind.1 run
  obtain ⟨kept, h⟩ := hx s a s₁ sub first
  exact hf a h s₁ b s' kept second

theorem lift {x : Except RedirectError α} (h : ∀ a, x = .ok a → P a) :
    Ensures used (liftM x) P := by
  intro s a s' sub run
  obtain ⟨is, rfl⟩ := Redirecting.ok_lift.1 run
  exact ⟨sub, h a is⟩

theorem draw {x : StateM Temporaries α} (h : Temporaries.Ensures used x P) :
    Ensures used (modifyGet x) P := by
  intro s a s' sub run
  have run : x s = (a, s') := Redirecting.ok_modifyGet.1 run
  have after := h s sub
  rwa [run] at after

end Ensures

end Redirecting

-- Temporaries are declared in the vocabulary, and may give their names to others; it has what is
-- inserted for fields.
structure Vocabulary.Serves (V : Vocabulary) (catalog : Catalog) (settings : Settings)
    (used : List String → Prop) : Prop where
  blank : V.declared "_"
  value : V.word "v"
  accessors : V.HasAccessors catalog
  enums : ∀ info enum, catalog.Proxies info → info.enum? = some enum →
    V.referent enum ∧ V.referent (settings.sliceHelper enum)
  temporaries : ∀ hint temps, V.word hint → used temps →
    let x := Naming.unique (Naming.localVariable hint) temps
    used (x :: temps) ∧ V.word x ∧ V.declared x

variable {V : Vocabulary}

def Captured.Keeps (V : Vocabulary) (c : Captured) : Prop :=
  (∀ x ∈ c.names, V.declared x) ∧ ∀ e ∈ c.values, e.Keeps V

namespace Captured.Keeps

theorem none : Captured.Keeps V {} :=
  ⟨List.forall_mem_nil _, List.forall_mem_nil _⟩

theorem single {x : String} {e : Expr} (declared : V.declared x) (keeps : e.Keeps V) :
    Captured.Keeps V ⟨[x], [e]⟩ :=
  ⟨List.forall_mem_singleton.2 declared, List.forall_mem_singleton.2 keeps⟩

theorem append {c c' : Captured} (h : c.Keeps V) (h' : c'.Keeps V) : (c ++ c').Keeps V :=
  ⟨List.forall_mem_append.2 ⟨h.1, h'.1⟩, List.forall_mem_append.2 ⟨h.2, h'.2⟩⟩

theorem foldl {α : Type} {f : α → Captured} {l : List α} (h : ∀ a ∈ l, (f a).Keeps V) :
    (l.foldl (· ++ f ·) ({} : Captured)).Keeps V := by
  rw [foldl_append]
  exact ⟨List.forall_mem_flatMap.2 fun a ha => (h a ha).1,
    List.forall_mem_flatMap.2 fun a ha => (h a ha).2⟩

theorem statement? {c : Captured} (h : c.Keeps V) {span : Span} :
    ∀ s ∈ c.statement? span, s.Keeps V.anyWord := by
  have targets : ∀ e ∈ c.names.map (Expr.ident span), e.Keeps V.anyWord :=
    List.forall_mem_map.2 fun _ _ => Expr.keeps_ident.2 trivial
  have values : ∀ e ∈ c.values, e.Keeps V.anyWord := fun e he => (h.2 e he).anyWord
  have declared : ∀ x ∈ (c.names.map (Expr.ident span)).filterMap (·.ident?), V.declared x := by
    simpa [Expr.ident?] using h.1
  intro s hs
  unfold Captured.statement? at hs
  dsimp only at hs
  split at hs
  · split at hs
    · cases hs
    · obtain rfl := Option.some.inj hs
      exact .assigned targets values
  · obtain rfl := Option.some.inj hs
    exact Stmt.keeps_assign.2 ⟨fun _ => declared, targets, values⟩

end Captured.Keeps

def TargetPlan.Keeps (V : Vocabulary) (p : TargetPlan) : Prop :=
  p.captured.Keeps V ∧ (∀ pair ∈ p.plain, pair.1.Keeps V.anyWord ∧ pair.2.Keeps V.anyWord) ∧
    ∀ s ∈ p.mutator, s.Keeps V.anyWord

def AssignPlan.Keeps (V : Vocabulary) (p : AssignPlan) : Prop :=
  (∀ s ∈ p.bindings, s.Keeps V) ∧ (∀ s ∈ p.plain, s.Keeps V) ∧ ∀ s ∈ p.mutators, s.Keeps V

theorem AssignPlan.Keeps.statements {p : AssignPlan} (h : p.Keeps V) :
    ∀ s ∈ p.statements, s.Keeps V := by
  simp only [AssignPlan.statements, List.forall_mem_append, Option.mem_toList]
  exact ⟨⟨h.1, h.2.1⟩, h.2.2⟩

theorem AssignPlan.keeps_keep {s : Stmt} (h : s.Keeps V) : (AssignPlan.keep s).Keeps V := by
  simpa [AssignPlan.keep, AssignPlan.Keeps] using h

theorem Expr.Keeps.asOperandOf {e : Expr} (h : e.Keeps V) (op : BinaryOp) (span : Span) :
    (e.asOperandOf op span).Keeps V := by
  unfold Expr.asOperandOf
  split
  · exact Expr.keeps_paren.2 h
  · exact h

theorem Expr.Keeps.literalElements {e : Expr} {es : List Expr} (h : e.Keeps V)
    (literal : FieldInfo.literalElements? e = some es) : ∀ e ∈ es, e.Keeps V := by
  unfold FieldInfo.literalElements? at literal
  split at literal
  · split at literal
    · obtain rfl := Option.some.inj literal
      refine List.forall_mem_map.2 fun element mem => (Expr.keeps_composite.1 h).2 _ ?_
      exact List.mem_flatMap.2 ⟨element, mem, by simp [Element.operands]⟩
    · cases literal
  · cases literal

section

variable {catalog : Catalog} {settings : Settings} {used : List String → Prop} {span : Span}
  (serves : V.Serves catalog settings used)
include serves

theorem Vocabulary.Serves.nameHint {e : Expr} (h : e.Keeps V) : V.word e.nameHint := by
  induction e using Expr.nameHint.induct with
  | case1 => exact Expr.keeps_ident.1 h
  | case2 => exact (Expr.keeps_select.1 h).1
  | case3 _ _ _ ih => exact ih (Expr.keeps_index.1 h).1
  | case4 _ _ ih => exact ih (Expr.keeps_paren.1 h)
  | case5 _ _ _ ih => exact ih (Expr.keeps_unary.1 h)
  | case6 _ _ _ _ ih => exact ih (Expr.keeps_call.1 h).2.1
  | case7 e =>
    rw [Expr.nameHint]
    · exact serves.value
    all_goals assumption

theorem Vocabulary.Serves.fresh {hint : String} (word : V.word hint) :
    Temporaries.Ensures used (Temporaries.fresh hint) fun x => V.word x ∧ V.declared x :=
  fun _ sub => serves.temporaries hint _ word sub

theorem argument_keeps {info : FieldInfo} (proxies : catalog.Proxies info) {v : TypedExpr}
    (h : v.expr.Keeps V) : (info.argument settings v span).Keeps V.anyWord := by
  have called {name : String} {e : Expr} (referent : V.referent name) (h : e.Keeps V) :
      (Expr.callNamed name [e] span).Keeps V.anyWord := by
    exact Expr.keeps_call.2 ⟨⟨forall_mem_some referent, List.forall_mem_nil _⟩,
      Expr.keeps_ident.2 trivial, List.forall_mem_singleton.2 h.anyWord⟩
  unfold FieldInfo.argument
  split
  · exact h.anyWord
  case h_2 enum converts =>
    obtain ⟨type, helper⟩ := serves.enums info enum proxies converts
    split
    · split
      · exact h.anyWord
      · split
        case h_1 elements literal =>
          refine Expr.keeps_composite.2 ⟨List.forall_mem_singleton.2 type, ?_⟩
          refine List.forall_mem_flatMap.2 (List.forall_mem_map.2 fun e he => ?_)
          exact List.forall_mem_singleton.2 (called type (h.literalElements literal e he))
        case h_2 => exact called helper h
    · split
      · exact h.anyWord
      · exact called type h

theorem write_keeps {info : FieldInfo} (proxies : catalog.Proxies info) {receiver : Expr}
    {v : TypedExpr} (hr : receiver.Keeps V) (hv : v.expr.Keeps V) :
    (info.write settings receiver v span).Keeps V.anyWord := by
  refine Stmt.keeps_expr.2 (Expr.keeps_call.2 ⟨⟨nofun, List.forall_mem_nil _⟩,
    Expr.keeps_select.2 ⟨trivial, hr.anyWord⟩, ?_⟩)
  exact List.forall_mem_singleton.2 (argument_keeps serves proxies hv)

theorem captureOperand_ensures {e : Expr} (h : e.Keeps V) :
    Temporaries.Ensures used (captureOperand span e) fun r => r.1.Keeps V ∧ r.2.Keeps V :=
  .bind (serves.fresh (serves.nameHint h)) fun _ ⟨word, declared⟩ =>
    .pure ⟨Expr.keeps_ident.2 word, .single declared h⟩

theorem captureCalling_ensures {e : Expr} (h : e.Keeps V) :
    Temporaries.Ensures used (captureCalling span e) fun r => r.1.Keeps V ∧ r.2.Keeps V := by
  unfold captureCalling
  split
  · exact .pure ⟨h, .none⟩
  · exact captureOperand_ensures serves h

theorem capturePlace_ensures {e : Expr} (h : e.Keeps V) :
    Temporaries.Ensures used (capturePlace span e) fun r => r.1.Keeps V ∧ r.2.Keeps V := by
  induction e using capturePlace.induct with
  | case1 _ inner ih => exact ih (Expr.keeps_paren.1 h)
  | case2 at_ base i =>
    obtain ⟨hb, hi⟩ := Expr.keeps_index.1 h
    exact .bind (captureCalling_ensures serves hb) fun base keptBase =>
      .bind (captureCalling_ensures serves hi) fun i keptIndex =>
        .pure ⟨Expr.keeps_index.2 ⟨keptBase.1, keptIndex.1⟩, keptBase.2.append keptIndex.2⟩
  | case3 at_ base member =>
    obtain ⟨word, hb⟩ := Expr.keeps_select.1 h
    exact .bind (captureCalling_ensures serves hb) fun base kept =>
      .pure ⟨Expr.keeps_select.2 ⟨word, kept.1⟩, kept.2⟩
  | case4 at_ inner =>
    exact .bind (captureCalling_ensures serves (Expr.keeps_unary.1 h)) fun inner kept =>
      .pure ⟨Expr.keeps_unary.2 kept.1, kept.2⟩
  | case5 e _ _ _ _ =>
    rw [capturePlace]
    · exact .pure ⟨h, .none⟩
    all_goals assumption

theorem captureTarget_ensures (written : List String) (places : Bool) {t : Target}
    (h : t.Keeps V catalog) : Temporaries.Ensures used (captureTarget span written places t)
      fun r => r.1.Keeps V catalog ∧ r.2.Keeps V := by
  cases t with
  | field receiver info =>
    rw [captureTarget]
    split
    · exact .pure ⟨h, .none⟩
    · exact .bind (captureOperand_ensures serves h.1) fun receiver kept =>
        .pure ⟨⟨kept.1, h.2⟩, kept.2⟩
  | plain place =>
    rw [captureTarget]
    split
    · exact .bind (capturePlace_ensures serves h) fun place kept => .pure kept
    · exact .pure ⟨h, .none⟩
  | blank => exact .pure ⟨h, .none⟩

theorem captureValue_ensures {hint : String} (word : V.word hint) {v : Option TypedExpr}
    (h : ∀ t ∈ v, t.expr.Keeps V) : Temporaries.Ensures used (captureValue span hint v)
      fun r => r.1.expr.Keeps V ∧ r.2.Keeps V := by
  cases v with
  | none =>
    exact .bind (serves.fresh word) fun _ ⟨word, declared⟩ => .pure ⟨Expr.keeps_ident.2 word,
      List.forall_mem_singleton.2 declared, List.forall_mem_nil _⟩
  | some v =>
    rw [captureValue]
    split
    · exact .pure ⟨h v rfl, .none⟩
    · exact .bind (serves.fresh word) fun _ ⟨word, declared⟩ =>
        .pure ⟨Expr.keeps_ident.2 word, .single declared (h v rfl)⟩

theorem discard_keeps {v : Option TypedExpr} (h : ∀ t ∈ v, t.expr.Keeps V) : (discard v).Keeps V := by
  unfold discard
  split
  · exact ⟨List.forall_mem_singleton.2 serves.blank, List.forall_mem_nil _⟩
  · split
    · exact .none
    · exact .single serves.blank (h _ rfl)

theorem planTarget_ensures (inPlace : Bool) {t : Target} (ht : t.Keeps V catalog)
    {v : Option TypedExpr} (hv : ∀ t ∈ v, t.expr.Keeps V) :
    Temporaries.Ensures used (planTarget settings span inPlace t v) (·.Keeps V) := by
  cases t with
  | field receiver info =>
    have value : Temporaries.Ensures used (captureValue span info.name v) fun r =>
        r.1.expr.Keeps V ∧ r.2.Keeps V :=
      captureValue_ensures serves ht.2.2 hv
    cases inPlace <;> cases v <;> exact .bind value fun source kept =>
      .pure ⟨kept.2, forall_mem_none, forall_mem_some (write_keeps serves ht.2.1 ht.1 kept.1)⟩
  | plain place =>
    have value : Temporaries.Ensures used (captureValue span place.nameHint v) fun r =>
        r.1.expr.Keeps V ∧ r.2.Keeps V :=
      captureValue_ensures serves (serves.nameHint ht) hv
    have written {source : TypedExpr} {captured : Captured} (hs : source.expr.Keeps V)
        (hc : captured.Keeps V) :
        TargetPlan.Keeps V { captured, plain := some (place, source.expr) } :=
      ⟨hc, forall_mem_some ⟨ht.anyWord, hs.anyWord⟩, forall_mem_none⟩
    cases inPlace <;> cases v <;> first
      | exact .bind value fun source kept => .pure (written kept.1 kept.2)
      | exact .pure (written (hv _ rfl) .none)
  | blank =>
    have stays (value : TypedExpr) (hv : value.expr.Keeps V) :
        TargetPlan.Keeps V { plain := some (.ident span "_", value.expr) } :=
      ⟨.none, forall_mem_some ⟨Expr.keeps_ident.2 trivial, hv.anyWord⟩, forall_mem_none⟩
    have discards : TargetPlan.Keeps V { captured := discard v } :=
      ⟨discard_keeps serves hv, forall_mem_none, forall_mem_none⟩
    cases inPlace <;> cases v <;> first | exact .pure discards | exact .pure (stays _ (hv _ rfl))

omit serves in
theorem plainStatement?_keeps {pairs : List (Expr × Expr)}
    (h : ∀ pair ∈ pairs, pair.1.Keeps V.anyWord ∧ pair.2.Keeps V.anyWord) :
    ∀ s ∈ plainStatement? span pairs, s.Keeps V.anyWord := by
  intro s hs
  unfold plainStatement? at hs
  split at hs
  · cases hs
  · obtain rfl := Option.some.inj hs
    exact .assigned (List.forall_mem_map.2 fun pair mem => (h pair mem).1)
      (List.forall_mem_map.2 fun pair mem => (h pair mem).2)

theorem planTargets_ensures {ts : List Target} {vs : List TypedExpr}
    (hts : ∀ t ∈ ts, t.Keeps V catalog) (hvs : ∀ v ∈ vs, v.expr.Keeps V) :
    Temporaries.Ensures used (planTargets settings span ts vs) (·.Keeps V.anyWord) := by
  have sources : ∀ v ∈ planSources ts vs, ∀ t ∈ v, t.expr.Keeps V := by
    unfold planSources
    split
    · exact List.forall_mem_map.2 fun v hv => forall_mem_some (hvs v hv)
    · exact List.forall_mem_map.2 fun _ _ => forall_mem_none
  unfold planTargets
  refine .bind (.mapM fun t ht => captureTarget_ensures serves _ _ (hts t ht)) fun operands ho => ?_
  have each (inPlace : Bool) {t : Target} {v : Option TypedExpr}
      (mem : (t, v) ∈ (operands.map (·.1)).zip (planSources ts vs)) :
      Temporaries.Ensures used (planTarget settings span inPlace t v) (·.Keeps V) := by
    obtain ⟨ht, hv⟩ := List.of_mem_zip mem
    obtain ⟨operand, bound, rfl⟩ := List.mem_map.1 ht
    exact planTarget_ensures serves inPlace (ho operand bound).1 (sources v hv)
  refine .bind (.mapM fun part mem => each _ mem) fun plans hp => .pure ⟨?_, ?_, ?_⟩
  · have first := Captured.Keeps.foldl fun operand mem => (ho operand mem).2
    have second := Captured.Keeps.foldl fun plan mem => (hp plan mem).1
    intro s hs
    obtain ⟨c, hc, hs⟩ := List.mem_filterMap.1 hs
    refine Captured.Keeps.statement? ?_ s hs
    split at hc
    · obtain rfl := List.mem_singleton.1 hc
      exact first.append second
    · rcases List.mem_pair.1 hc with rfl | rfl
      · exact first
      · exact ⟨second.1, List.forall_mem_map.2 hvs⟩
  · refine plainStatement?_keeps fun pair mem => ?_
    obtain ⟨plan, mem, hp'⟩ := List.mem_filterMap.1 mem
    exact (hp plan mem).2.1 pair hp'
  · intro s hs
    obtain ⟨plan, mem, hs⟩ := List.mem_filterMap.1 hs
    exact (hp plan mem).2.2 s hs

end

theorem Stmt.Keeps.anyWord {s : Stmt} (h : s.Keeps V) : s.Keeps V.anyWord := fun part within =>
  have ⟨bound, referents, operands⟩ := h part within
  ⟨bound, referents, fun e he => (operands e he).anyWord⟩

theorem Target.Keeps.place {written : Expr} {t : Target} {catalog : Catalog}
    (ht : t.Keeps V catalog) (hw : written.Keeps V) : (t.place written).Keeps V := by
  cases t with
  | plain place => exact ht
  | blank | field => exact hw

def Relocated.Keeps (V : Vocabulary) (m : Relocated) : Prop :=
  (∀ s ∈ m.before, s.Keeps V) ∧ (∀ s ∈ m.header, s.Keeps V) ∧ ∀ s ∈ m.after, s.Keeps V

def RangeHeader.Keeps (V : Vocabulary) (head : RangeHeader) : Prop :=
  (head.define = true →
      ∀ x ∈ (head.key.toList ++ head.value.toList).filterMap (·.ident?), V.declared x) ∧
    (∀ e ∈ head.key, e.Keeps V) ∧ (∀ e ∈ head.value, e.Keeps V) ∧ ∀ s ∈ head.prelude, s.Keeps V

namespace RedirectContext

variable {σ : Type} [TypeOracle σ] {r : RedirectContext} {o : σ} {span : Span}
  {used : List String → Prop}

theorem relocate_keeps {place : Header} {p : AssignPlan} {m : Relocated} (h : p.Keeps V)
    (moved : r.relocate place span p = .ok m) : m.Keeps V := by
  have none : ∀ s ∈ ([] : List Stmt), s.Keeps V := List.forall_mem_nil _
  have emptied : ∀ s ∈ some (Stmt.empty span), s.Keeps V := forall_mem_some Stmt.keeps_empty
  have kept : ∀ s ∈ some (p.plain.getD (.empty span)), s.Keeps V := by
    cases hp : p.plain with
    | none => exact emptied
    | some s => exact forall_mem_some (h.2.1 s hp)
  have written : ∀ s ∈ p.bindings ++ p.mutators, s.Keeps V :=
    List.forall_mem_append.2 ⟨h.1, h.2.2⟩
  simp only [relocate] at moved
  split at moved
  case isTrue => exact ok_pure.1 moved ▸ ⟨none, h.2.1, none⟩
  case isFalse =>
    split at moved
    case h_1 => simp [fail, ok_throw] at moved
    case h_2 =>
      split at moved
      case isTrue => exact ok_pure.1 moved ▸ ⟨none, emptied, h.statements⟩
      case isFalse => exact ok_pure.1 moved ▸ ⟨none, kept, written⟩
    all_goals exact ok_pure.1 moved ▸ ⟨written, kept, none⟩

theorem expandCompound_keeps (op : BinaryOp) {targets values : List Expr}
    (ht : ∀ e ∈ targets, e.Keeps V) (hv : ∀ e ∈ values, e.Keeps V) :
    (∀ e ∈ (Stmt.expandCompound op targets values).1, e.Keeps V) ∧
      ∀ e ∈ (Stmt.expandCompound op targets values).2, e.Keeps V := by
  unfold Stmt.expandCompound
  split
  · obtain ⟨target, _⟩ := List.forall_mem_cons.1 ht
    obtain ⟨value, _⟩ := List.forall_mem_cons.1 hv
    exact ⟨List.forall_mem_singleton.2 target, List.forall_mem_singleton.2
      (Expr.keeps_binary.2 ⟨target, value.asOperandOf _ _⟩)⟩
  · exact ⟨ht, hv⟩

theorem steppedValue_keeps {target : Expr} {increment : Bool} (h : target.Keeps V) :
    (Stmt.steppedValue span target increment).Keeps V :=
  Expr.keeps_binary.2 ⟨h, Expr.keeps_literal⟩

section

variable (serves : V.Serves r.scope.catalog r.settings used)
include serves

theorem planAssign_ensures {written values : List Expr} (hw : ∀ e ∈ written, e.Keeps V)
    (hv : ∀ e ∈ values, e.Keeps V) : Redirecting.Ensures used (r.planAssign o span written values)
      (·.Keeps V.anyWord) := by
  intro temps p temps' sub run
  obtain ⟨ts, vs, ht, hvs, planned⟩ := planned_of_ok run
  have keptTargets := targets_keep serves.accessors ht hw
  have keptValues := values_keep serves.accessors values hvs hv
  cases planned with
  | kept =>
    refine ⟨sub, AssignPlan.keeps_keep (.assigned (fun e he => ?_)
      fun e he => (keptValues e he).anyWord)⟩
    rw [← List.map_uncurry_zip_eq_zipWith] at he
    obtain ⟨⟨t, e⟩, mem, rfl⟩ := List.mem_map.1 he
    obtain ⟨ht, he⟩ := List.of_mem_zip mem
    exact ((keptTargets t ht).place (hw e he)).anyWord
  | @single receiver info value =>
    obtain ⟨hr, proxies, _⟩ := keptTargets _ (List.mem_singleton_self _)
    have hv := keptValues value.expr (by simp)
    exact ⟨sub, List.forall_mem_nil _, forall_mem_none,
      List.forall_mem_singleton.2 (write_keeps serves proxies hr hv)⟩
  | split _ _ hp =>
    have plans : Temporaries.Ensures used (planTargets r.settings span ts vs) (·.Keeps V.anyWord) :=
      planTargets_ensures serves keptTargets (List.forall_mem_map.1 keptValues)
    have planned := plans temps sub
    rwa [hp] at planned

theorem planCompound_ensures {target value : Expr} {op : BinaryOp} {form : Expr → Expr → Stmt}
    (ht : target.Keeps V) (hv : value.Keeps V)
    (forms : ∀ t v : Expr, t.Keeps V → v.Keeps V → (form t v).Keeps V) :
    Redirecting.Ensures used (r.planCompound o span target op value form) (·.Keeps V.anyWord) := by
  refine .bind (.lift fun t resolved => target_keeps serves.accessors target resolved ht)
    fun t kept => .bind (.lift fun v redirected => value_keeps serves.accessors value redirected hv)
      fun v hv => ?_
  cases t with
  | field receiver info =>
    refine .bind (.draw (captureOperand_ensures serves kept.1)) fun (temp, captured) drawn => ?_
    obtain ⟨htemp, hc⟩ := drawn
    refine .bind (P := fun _ => True) (.lift fun _ _ => trivial) fun _ _ => .pure ?_
    have read : (info.read temp span).expr.Keeps V := by
      simp [FieldInfo.read, Expr.ident?, htemp, serves.accessors info kept.2.1 kept.2.2]
    exact ⟨fun s hs => hc.statement? s (Option.mem_toList.1 hs), forall_mem_none,
      List.forall_mem_singleton.2 (write_keeps serves kept.2.1 htemp
        (Expr.keeps_binary.2 ⟨read, hv.asOperandOf _ _⟩))⟩
  | plain | blank =>
    exact .pure (AssignPlan.keeps_keep (forms _ _ (kept.place ht) hv).anyWord)

theorem plan_ensures {targets values : List Expr} {op : AssignOp}
    (h : (Stmt.assign span targets op values).Keeps V) :
    Redirecting.Ensures used (r.plan o span targets op values) (·.Keeps V.anyWord) := by
  obtain ⟨declared, ht, hv⟩ := Stmt.keeps_assign.1 h
  cases op with
  | assign => exact planAssign_ensures serves ht hv
  | define =>
    exact .bind (.lift fun vs h => values_keep serves.accessors values h hv) fun vs hvs =>
      .pure (AssignPlan.keeps_keep (Stmt.keeps_assign.2 ⟨declared, ht, hvs⟩).anyWord)
  | compound op =>
    simp only [plan]
    split
    case isTrue =>
      obtain ⟨ht, hv⟩ := expandCompound_keeps op ht hv
      exact planAssign_ensures serves ht hv
    case isFalse =>
      split
      case h_1 target value =>
        refine planCompound_ensures serves (ht _ (List.mem_singleton_self _))
          (hv _ (List.mem_singleton_self _)) fun t v ht hv => ?_
        exact Stmt.keeps_assign.2 ⟨AssignOp.noConfusion, List.forall_mem_singleton.2 ht,
          List.forall_mem_singleton.2 hv⟩
      case h_2 => exact .pure (AssignPlan.keeps_keep h.anyWord)

theorem planStep_ensures {target : Expr} {increment : Bool} (h : target.Keeps V) :
    Redirecting.Ensures used (r.planStep o span target increment) (·.Keeps V.anyWord) := by
  unfold planStep
  split
  · exact planAssign_ensures serves (List.forall_mem_singleton.2 h)
      (List.forall_mem_singleton.2 (steppedValue_keeps h))
  · exact planCompound_ensures serves h Expr.keeps_literal fun t _ ht _ => Stmt.keeps_step.2 ht

theorem header_ensures (place : Header) {s : Option Stmt} (h : ∀ stmt ∈ s, stmt.Keeps V) :
    Redirecting.Ensures used (r.header o place s) (·.Keeps V.anyWord) := by
  have none : ∀ s ∈ ([] : List Stmt), s.Keeps V.anyWord := List.forall_mem_nil _
  cases s with
  | none => exact .pure ⟨none, forall_mem_none, none⟩
  | some s =>
    have h := h s rfl
    cases s with
    | assign =>
      exact .bind (plan_ensures serves h) fun p hp => .lift fun m moved => relocate_keeps hp moved
    | step =>
      exact .bind (planStep_ensures serves (Stmt.keeps_step.1 h)) fun p hp =>
        .lift fun m moved => relocate_keeps hp moved
    | expr e =>
      refine .bind (.lift fun t ht => value_keeps serves.accessors e ht (Stmt.keeps_expr.1 h))
        fun t ht => .pure ⟨none, forall_mem_some (Stmt.keeps_expr.2 ht.anyWord), none⟩
    | _ => exact .pure ⟨none, forall_mem_some h.anyWord, none⟩

theorem rangeTarget_ensures (type : Option TypeExpr) {t : Option Target}
    (h : ∀ target ∈ t, target.Keeps V r.scope.catalog) :
    Redirecting.Ensures used (r.rangeTarget span type t) fun result =>
      (∀ e ∈ result.1, e.Keeps V.anyWord ∧ ∀ x ∈ e.ident?, V.declared x) ∧
        ∀ s ∈ result.2, s.Keeps V.anyWord := by
  have none : ∀ s ∈ ([] : List Stmt), s.Keeps V.anyWord := List.forall_mem_nil _
  have bound {x : String} (declared : V.declared x) : ∀ e ∈ some (Expr.ident span x),
      e.Keeps V.anyWord ∧ ∀ x ∈ e.ident?, V.declared x :=
    forall_mem_some ⟨Expr.keeps_ident.2 trivial, forall_mem_some declared⟩
  rcases t with _ | _ | place | ⟨receiver, info⟩
  case none => exact .pure ⟨forall_mem_none, none⟩
  case blank => exact .pure ⟨bound serves.blank, none⟩
  case plain =>
    have hp : place.Keeps V := h _ rfl
    refine .bind (.draw (serves.fresh (serves.nameHint hp))) fun x ⟨word, declared⟩ =>
      .pure ⟨bound declared, ?_⟩
    exact List.forall_mem_singleton.2 (.assigned (List.forall_mem_singleton.2 hp.anyWord)
      (List.forall_mem_singleton.2 (Expr.keeps_ident.2 trivial)))
  case field =>
    obtain ⟨hr, proxies, named⟩ := h _ rfl
    refine .bind (.draw (serves.fresh named)) fun x ⟨word, declared⟩ => ?_
    refine .bind (P := fun _ => True) (.lift fun _ _ => trivial) fun _ _ =>
      .pure ⟨bound declared, ?_⟩
    exact List.forall_mem_singleton.2 (write_keeps serves proxies hr (Expr.keeps_ident.2 word))

theorem rangeHeader_ensures (type : Option StaticType) {key value : Option Expr}
    (hk : ∀ e ∈ key, e.Keeps V) (hv : ∀ e ∈ value, e.Keeps V) :
    Redirecting.Ensures used (r.rangeHeader o span key value type) (·.Keeps V.anyWord) := by
  have resolve {e : Option Expr} (h : ∀ expr ∈ e, expr.Keeps V) :
      Redirecting.Ensures used (e.mapM fun e => (liftM (r.target o e) : Redirecting Target))
        (∀ t ∈ ·, t.Keeps V r.scope.catalog) := by
    intro temps t temps' sub run
    obtain ⟨resolved, rfl⟩ := ok_mapM_target.1 run
    refine ⟨sub, fun target mem => ?_⟩
    exact targets_keep serves.accessors resolved (by simpa using h) target (Option.mem_toList.2 mem)
  refine .bind (resolve hk) fun kt hkt => .bind (resolve hv) fun vt hvt => ?_
  split
  case isTrue =>
    refine .bind (rangeTarget_ensures serves _ hkt) fun (newKey, first) ⟨hk, hf⟩ => ?_
    refine .bind (rangeTarget_ensures serves _ hvt) fun (newValue, second) ⟨hv, hs⟩ => ?_
    refine .pure ⟨fun _ => ?_, fun e he => (hk e he).1, fun e he => (hv e he).1,
      List.forall_mem_append.2 ⟨hf, hs⟩⟩
    intro x hx
    obtain ⟨e, he, hx⟩ := List.mem_filterMap.1 hx
    rcases List.mem_append.1 he with he | he
    · exact (hk e (Option.mem_toList.1 he)).2 x hx
    · exact (hv e (Option.mem_toList.1 he)).2 x hx
  case isFalse =>
    have placed {written : Option Expr} (hw : ∀ e ∈ written, e.Keeps V) {t : Option Target}
        (ht : ∀ target ∈ t, target.Keeps V r.scope.catalog) :
        ∀ e ∈ written.bind fun written => t.map (·.place written), e.Keeps V.anyWord := by
      intro e he
      obtain ⟨w, hw', he⟩ := Option.bind_eq_some_iff.1 he
      obtain ⟨target, ht', rfl⟩ := Option.map_eq_some_iff.1 he
      exact ((ht target ht').place (hw w hw')).anyWord
    exact .pure ⟨nofun, placed hk hkt, placed hv hvt, List.forall_mem_nil _⟩

theorem value?_keeps {e e' : Option Expr} (h : ∀ expr ∈ e, expr.Keeps V)
    (run : r.value? o e = .ok e') : ∀ e ∈ e', e.Keeps V := by
  cases e with
  | none =>
    obtain rfl := ok_pure.1 run
    exact forall_mem_none
  | some e =>
    simp only [value?, ok_bind, ok_pure] at run
    obtain ⟨t, ht, rfl⟩ := run
    exact forall_mem_some (value_keeps serves.accessors e ht (h e rfl))

end

-- By induction on the statement. Names that are taken stay taken, so that each temporary is new, and
-- what a statement becomes keeps the vocabulary, whatever the words in it.
mutual

theorem stmt_ensures (serves : V.Serves r.scope.catalog r.settings used) :
    (s : Stmt) → ∀ {o : σ} {elseIf : Bool}, s.Keeps V →
      Redirecting.Ensures used (r.stmt o elseIf s) (∀ s ∈ ·, s.Keeps V.anyWord)
  | .empty _, _, _, h | .breakLoop _, _, _, h | .continueLoop _, _, _, h =>
    .pure (List.forall_mem_singleton.2 h.anyWord)
  | .expr e, _, _, h =>
    .bind (.lift fun t ht => value_keeps serves.accessors e ht (Stmt.keeps_expr.1 h)) fun t ht =>
      .pure (List.forall_mem_singleton.2 (Stmt.keeps_expr.2 ht.anyWord))
  | .assign span targets op values, _, _, h =>
    .bind (plan_ensures serves h) fun p hp => .pure hp.statements
  | .step span target increment, _, _, h =>
    .bind (planStep_ensures serves (Stmt.keeps_step.1 h)) fun p hp => .pure hp.statements
  | .var span names type values, _, _, h =>
    have ⟨declared, referents, hv⟩ := Stmt.keeps_var.1 h
    .bind (.lift fun ts ht => values_keep serves.accessors values ht hv) fun ts hts =>
      .pure (List.forall_mem_singleton.2 (Stmt.keeps_var.2 ⟨declared, referents,
        fun e he => (hts e he).anyWord⟩))
  | .ret span values, _, _, h =>
    .bind (.lift fun ts ht => values_keep serves.accessors values ht (Stmt.keeps_ret.1 h))
      fun ts hts => .pure (List.forall_mem_singleton.2
        (Stmt.keeps_ret.2 fun e he => (hts e he).anyWord))
  | .block body, _, _, h =>
    .bind (block_ensures serves body (Stmt.keeps_block.1 h)) fun body hb =>
      .pure (List.forall_mem_singleton.2 (Stmt.keeps_block.2 hb))
  | .ifElse span init cond body orElse, _, _, h =>
    have ⟨hi, hc, hb, ho⟩ := Stmt.keeps_ifElse.1 h
    .bind (header_ensures serves _ hi) fun m hm =>
      .bind (.lift fun c run => value_keeps serves.accessors cond run hc) fun c hc =>
        .bind (block_ensures serves body hb) fun body hb =>
          .bind (branch_ensures serves orElse ho) fun orElse ho =>
            .pure (List.forall_mem_append.2 ⟨hm.1, List.forall_mem_singleton.2
              (Stmt.keeps_ifElse.2 ⟨hm.2.1, hc.anyWord, hb, ho⟩)⟩)
  | .forLoop span init cond post body, _, _, h => by
    -- The walk may stop between the headers and the body, so the parts come from a run that did not.
    intro temps out temps' sub run
    obtain ⟨hi, hc, hp, hb⟩ := Stmt.keeps_forLoop.1 h
    obtain ⟨m, c, mp, body', _, _, hm, hc', hmp, _, hb', rfl⟩ := ok_forLoop run
    obtain ⟨sub, before, header, _⟩ := header_ensures serves _ hi _ _ _ sub hm
    obtain ⟨sub, _, post, after⟩ := header_ensures serves _ hp _ _ _ sub hmp
    obtain ⟨sub, hb⟩ := block_ensures serves body hb _ _ _ sub hb'
    refine ⟨sub, List.forall_mem_append.2 ⟨before, List.forall_mem_singleton.2 ?_⟩⟩
    exact Stmt.keeps_forLoop.2 ⟨header, fun e he => (value?_keeps serves hc hc' e he).anyWord, post,
      List.forall_mem_append.2 ⟨hb, after⟩⟩
  | .range span key value define iterable body, _, _, h => by
    intro temps out temps' sub run
    obtain ⟨declared, hk, hv, hi, hb⟩ := Stmt.keeps_range.1 h
    obtain ⟨t, head, body', temps₁, ht, hh, hb', rfl⟩ := ok_range rfl run
    have keepsHead : used temps₁.taken ∧ head.Keeps V.anyWord := by
      split at hh
      case isTrue defines =>
        obtain ⟨rfl, rfl⟩ := hh
        exact ⟨sub, fun _ => declared defines, fun e he => (hk e he).anyWord,
          fun e he => (hv e he).anyWord, List.forall_mem_nil _⟩
      case isFalse => exact rangeHeader_ensures serves _ hk hv _ _ _ sub hh
    obtain ⟨sub, declared, hk, hv, hp⟩ := keepsHead
    obtain ⟨sub, hb⟩ := block_ensures serves body hb _ _ _ sub hb'
    have iterable := value_keeps serves.accessors iterable ht hi
    refine ⟨sub, List.forall_mem_singleton.2 ?_⟩
    exact Stmt.keeps_range.2 ⟨declared, hk, hv, iterable.anyWord, List.forall_mem_append.2 ⟨hp, hb⟩⟩
  | .switch span init tag cases, _, _, h =>
    have ⟨hi, ht, hc⟩ := Stmt.keeps_switch.1 h
    .bind (header_ensures serves _ hi) fun m hm =>
      .bind (.lift fun t run => value?_keeps serves ht run) fun t ht =>
        .bind (cases_ensure serves cases hc) fun cases hc =>
          .pure (List.forall_mem_append.2 ⟨hm.1, List.forall_mem_singleton.2
            (Stmt.keeps_switch.2 ⟨hm.2.1, fun e he => (ht e he).anyWord, hc⟩)⟩)
termination_by structural s => s

theorem branch_ensures (serves : V.Serves r.scope.catalog r.settings used) :
    (s : Option Stmt) → ∀ {o : σ}, (∀ stmt ∈ s, stmt.Keeps V) →
      Redirecting.Ensures used (r.branch o s) (∀ s ∈ ·, s.Keeps V.anyWord)
  | none, _, _ => .pure forall_mem_none
  | some s, o, h => by
    intro temps out temps' sub run
    rcases ok_branch run with ⟨s', rfl, hs⟩ | ⟨rfl, rfl, _⟩
    · obtain ⟨kept, hs⟩ := stmt_ensures serves s (h s rfl) temps _ temps' sub hs
      exact ⟨kept, forall_mem_some (hs s' (List.mem_singleton_self _))⟩
    · exact ⟨sub, forall_mem_some (h s rfl).anyWord⟩
termination_by structural s => s

theorem block_ensures (serves : V.Serves r.scope.catalog r.settings used) :
    (b : Block) → ∀ {o : σ}, (∀ s ∈ b.statements, s.Keeps V) →
      Redirecting.Ensures used (r.block o b) (∀ s ∈ ·.statements, s.Keeps V.anyWord)
  | .mk _ statements, _, h =>
    .bind (stmts_ensure serves statements h) fun _ hss => .pure hss
termination_by structural b => b

theorem stmts_ensure (serves : V.Serves r.scope.catalog r.settings used) :
    (ss : List Stmt) → ∀ {o : σ}, (∀ s ∈ ss, s.Keeps V) →
      Redirecting.Ensures used (r.stmts o ss) (∀ s ∈ ·, s.Keeps V.anyWord)
  | [], _, _ => .pure (List.forall_mem_nil _)
  | s :: rest, _, h =>
    have ⟨hs, hr⟩ := List.forall_mem_cons.1 h
    .bind (stmt_ensures serves s hs) fun _ hf => .bind (stmts_ensure serves rest hr) fun _ ho =>
      .pure (List.forall_mem_append.2 ⟨hf, ho⟩)
termination_by structural ss => ss

theorem cases_ensure (serves : V.Serves r.scope.catalog r.settings used) :
    (cs : List Case) → ∀ {o : σ},
      (∀ c ∈ cs, (∀ e ∈ c.values, e.Keeps V) ∧ ∀ s ∈ c.body, s.Keeps V) →
      Redirecting.Ensures used (r.caseList o cs)
        (∀ c ∈ ·, (∀ e ∈ c.values, e.Keeps V.anyWord) ∧ ∀ s ∈ c.body, s.Keeps V.anyWord)
  | [], _, _ => .pure (List.forall_mem_nil _)
  | .mk _ values body :: rest, _, h =>
    have ⟨hc, hr⟩ := List.forall_mem_cons.1 h
    .bind (.lift fun _ run => values_keep serves.accessors values run hc.1) fun _ hts =>
      .bind (stmts_ensure serves body hc.2) fun _ hb => .bind (cases_ensure serves rest hr)
        fun _ ho => .pure (List.forall_mem_cons.2 ⟨⟨fun e he => (hts e he).anyWord, hb⟩, ho⟩)
termination_by structural cs => cs

end

end RedirectContext

namespace Stmt

mutual

theorem expand_keeps : (s : Stmt) → s.Keeps V → s.expand.Keeps V
  | .assign span targets (.compound op) values, h => by
    rw [expand]
    split
    case isTrue =>
      obtain ⟨_, ht, hv⟩ := keeps_assign.1 h
      obtain ⟨targets, values⟩ := RedirectContext.expandCompound_keeps op ht hv
      exact .assigned targets values
    case isFalse => exact h
  | .step span target increment, h => by
    rw [expand]
    split
    case isTrue =>
      have ht := keeps_step.1 h
      exact .assigned (List.forall_mem_singleton.2 ht)
        (List.forall_mem_singleton.2 (RedirectContext.steppedValue_keeps ht))
    case isFalse => exact h
  | .block body, h => keeps_block.2 (expandBlock_keeps body (keeps_block.1 h))
  | .ifElse _ init _ body orElse, h =>
    have ⟨hi, hc, hb, ho⟩ := keeps_ifElse.1 h
    keeps_ifElse.2 ⟨expandOption_keeps init hi, hc, expandBlock_keeps body hb,
      expandOption_keeps orElse ho⟩
  | .forLoop _ init _ post body, h =>
    have ⟨hi, hc, hp, hb⟩ := keeps_forLoop.1 h
    keeps_forLoop.2 ⟨expandOption_keeps init hi, hc, expandOption_keeps post hp,
      expandBlock_keeps body hb⟩
  | .range _ _ _ _ _ body, h =>
    have ⟨declared, hk, hv, hi, hb⟩ := keeps_range.1 h
    keeps_range.2 ⟨declared, hk, hv, hi, expandBlock_keeps body hb⟩
  | .switch _ init _ cases, h =>
    have ⟨hi, ht, hc⟩ := keeps_switch.1 h
    keeps_switch.2 ⟨expandOption_keeps init hi, ht, expandCases_keep cases hc⟩
  | .assign _ _ .assign _, h | .assign _ _ .define _, h | .empty _, h | .breakLoop _, h
  | .continueLoop _, h | .expr _, h | .var _ _ _ _, h | .ret _ _, h => h
termination_by structural s => s

theorem expandOption_keeps :
    (s : Option Stmt) → (∀ stmt ∈ s, stmt.Keeps V) → ∀ stmt ∈ expandOption s, stmt.Keeps V
  | none, _ => forall_mem_none
  | some s, h => forall_mem_some (expand_keeps s (h s rfl))
termination_by structural s => s

theorem expandBlock_keeps : (b : Block) → (∀ s ∈ b.statements, s.Keeps V) →
    ∀ s ∈ (expandBlock b).statements, s.Keeps V
  | .mk _ statements, h => expandList_keep statements h
termination_by structural b => b

theorem expandList_keep :
    (ss : List Stmt) → (∀ s ∈ ss, s.Keeps V) → ∀ s ∈ expandList ss, s.Keeps V
  | [], _ => List.forall_mem_nil _
  | s :: rest, h =>
    have ⟨hs, hr⟩ := List.forall_mem_cons.1 h
    List.forall_mem_cons.2 ⟨expand_keeps s hs, expandList_keep rest hr⟩
termination_by structural ss => ss

theorem expandCases_keep : (cs : List Case) →
    (∀ c ∈ cs, (∀ e ∈ c.values, e.Keeps V) ∧ ∀ s ∈ c.body, s.Keeps V) →
      ∀ c ∈ expandCases cs, (∀ e ∈ c.values, e.Keeps V) ∧ ∀ s ∈ c.body, s.Keeps V
  | [], _ => List.forall_mem_nil _
  | .mk _ _ body :: rest, h =>
    have ⟨hc, hr⟩ := List.forall_mem_cons.1 h
    List.forall_mem_cons.2 ⟨⟨hc.1, expandList_keep body hc.2⟩, expandCases_keep rest hr⟩
termination_by structural cs => cs

end

end Stmt

namespace FuncDecl

variable (f : FuncDecl) (catalog : Catalog) (methods : MethodTable) (settings : Settings)

-- The redirected body of a method, with the names that are out of use at its end.
def redirectBody : Except RedirectError (Block × Temporaries) := do
  let scope ← f.redirectScope catalog methods
  let types := TypeContext.ofMethod catalog methods f.expand
  (RedirectContext.block ⟨f.name, scope, settings⟩ types f.expand.body).run (.ofMethod f.expand)

-- The temporaries of a method: the names that are out of use only at the end.
def temporaries : List String :=
  match f.redirectBody catalog methods settings with
  | .ok (_, temps) =>
    temps.taken.take (temps.taken.length - (Temporaries.ofMethod f.expand).taken.length)
  | .error _ => []

variable {f catalog methods settings} {g : FuncDecl} {used : List String → Prop}

theorem redirect_iff : f.redirect catalog methods settings = .ok g ↔
    ∃ body temps, f.redirectBody catalog methods settings = .ok (body, temps) ∧
      { f with body } = g := by
  have bound : f.redirect catalog methods settings =
      f.redirectBody catalog methods settings >>= fun run => pure { f with body := run.1 } := by
    rw [redirect_eq, redirectBody]
    cases f.redirectScope catalog methods <;> rfl
  rw [bound, ok_bind]
  simp only [ok_pure, Prod.exists]

-- A method that keeps a vocabulary keeps it when it is redirected, as long as the vocabulary has what
-- redirection inserts.
theorem redirectBody_keeps {body : Block} {temps : Temporaries}
    (h : f.redirectBody catalog methods settings = .ok (body, temps))
    (serves : V.Serves catalog settings used) (start : used (Temporaries.ofMethod f.expand).taken)
    (keeps : ∀ s ∈ f.body.statements, s.Keeps V) :
    used temps.taken ∧ ∀ s ∈ body.statements, s.Keeps V.anyWord := by
  obtain ⟨scope, hs, run⟩ := ok_bind.1 h
  obtain ⟨rfl, _⟩ := mem_redirectScope hs
  have expanded := Stmt.expandBlock_keeps f.body keeps
  exact RedirectContext.block_ensures serves _ expanded _ _ _ start run

end FuncDecl

end FieldAccess
