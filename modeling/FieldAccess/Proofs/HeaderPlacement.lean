import FieldAccess.Proofs.AssignmentShape
import FieldAccess.Proofs.InsertedCalls
import FieldAccess.Proofs.ParsedHeaders
import FieldAccess.Proofs.Runs

namespace FieldAccess

namespace Stmt

-- Statements without expressions.
def isInert : Stmt → Bool
  | .empty _ | .breakLoop _ | .continueLoop _ => true
  | _ => false

-- What a simple statement assigns to, in whatever form.
def targets : Stmt → List Expr
  | .assign _ targets _ _ => targets
  | .step _ target _ => [target]
  | _ => []

-- The places that a simple statement writes when it runs. New variables are no places, and an
-- operation has one target and one value or does not run.
def writes : Stmt → List Expr
  | .assign _ targets .assign _ => targets
  | .assign _ [target] (.compound _) [_] => [target]
  | .step _ target _ => [target]
  | _ => []

end Stmt

namespace RedirectContext

variable {σ : Type} [TypeOracle σ] {r : RedirectContext} {o : σ} {temps temps' : Temporaries}

-- The plan for a statement that assigns.
inductive Plans (r : RedirectContext) (o : σ) : Stmt → AssignPlan → Prop
  | assign {span targets op values p temps temps'} :
      r.plan o span targets op values temps = .ok (p, temps') →
      Plans r o (.assign span targets op values) p
  | step {span target increment p temps temps'} :
      r.planStep o span target increment temps = .ok (p, temps') →
      Plans r o (.step span target increment) p

-- What a header holds in the end, and what has moved out of it: the plain part of a plan stays, or
-- the plan leaves an empty statement behind.
inductive Clears (r : RedirectContext) : HeaderSlot σ → HeaderSlot Unit → List Stmt → Prop
  | none {isPost o} : Clears r ⟨isPost, o, none⟩ ⟨isPost, (), none⟩ []
  | stays {isPost o s p kept} : r.Plans o s p → p.plain = some kept →
      Clears r ⟨isPost, o, some s⟩ ⟨isPost, (), some kept⟩ (p.bindings ++ p.mutators)
  | leaves {isPost o s p span} : r.Plans o s p →
      Clears r ⟨isPost, o, some s⟩ ⟨isPost, (), some (.empty span)⟩ p.statements
  | expr {isPost o e t} : r.value o e = .ok t →
      Clears r ⟨isPost, o, some (.expr e)⟩ ⟨isPost, (), some (.expr t.expr)⟩ []
  | other {isPost o s} : s.isEmpty = true ∨ s.isSimple = false →
      Clears r ⟨isPost, o, some s⟩ ⟨isPost, (), some s⟩ []

-- What a member of a list becomes there.
inductive Yields (r : RedirectContext) : σ × Stmt → List Stmt → Prop
  | plan {o s p} : r.Plans o s p → Yields r (o, s) p.statements
  | expr {o e t} : r.value o e = .ok t → Yields r (o, .expr e) [.expr t.expr]
  | var {o span names type values ts} : r.values o values = .ok ts →
      Yields r (o, .var span names type values) [.var span names type (ts.map (·.expr))]
  | ret {o span values ts} : r.values o values = .ok ts →
      Yields r (o, .ret span values) [.ret span (ts.map (·.expr))]
  | inert {o s} : s.isInert = true → Yields r (o, s) [s]
  | define {o span key value iterable t at_} : r.value o iterable = .ok t →
      Yields r (o, .range span key value true iterable (.mk at_ []))
        [.range span key value true t.expr (.mk at_ [])]
  | range {o span key value iterable body t head temps temps'} : r.value o iterable = .ok t →
      r.rangeHeader (TypeOracle.declare o (.range span key value false iterable body)) span key value
        t.type temps = .ok (head, temps') →
      Yields r (o, .range span key value false iterable (.mk body.span []))
        (.range span head.key head.value head.define t.expr (.mk body.span []) :: head.prelude)

-- Headers keep their order, and lists hold what members of lists become and what has moved out of
-- headers.
def Rearranges (r : RedirectContext) (l : Layout σ) (l' : Layout Unit) : Prop :=
  ∃ (headers : List (HeaderSlot Unit × List Stmt)) (parts : List (List Stmt)),
    List.Forall₂ (fun slot h => r.Clears slot h.1 h.2) l.slots headers ∧
    List.Forall₂ r.Yields l.listed parts ∧
    l'.slots = headers.map (·.1) ∧
    (l'.listed.map (·.2)).Perm (headers.flatMap (·.2) ++ parts.flatten) ∧
    l'.strays = l.strays

namespace Rearranges

variable {l₁ l₂ l : Layout σ} {l₁' l₂' l' l'' : Layout Unit}

theorem nil : r.Rearranges ({} : Layout σ) {} :=
  ⟨[], [], .nil, .nil, rfl, .nil, rfl⟩

theorem append (h : r.Rearranges l₁ l₁') (h' : r.Rearranges l₂ l₂') :
    r.Rearranges (l₁ ++ l₂) (l₁' ++ l₂') := by
  obtain ⟨headers, parts, clear, yield, slots, listed, strays⟩ := h
  obtain ⟨headers', parts', clear', yield', slots', listed', strays'⟩ := h'
  refine ⟨headers ++ headers', parts ++ parts', List.rel_append clear clear',
    List.rel_append yield yield', ?_, ?_, ?_⟩
  · simp [slots, slots']
  · have all := listed.append listed'
    simp only [← Multiset.coe_eq_coe, ← Multiset.coe_add, Layout.listed_append, List.map_append,
      List.flatMap_append, List.flatten_append] at all ⊢
    rw [all]
    abel
  · simp [strays, strays']

-- The order in lists does not matter.
theorem of_perm (h : r.Rearranges l l') (slots : l''.slots = l'.slots)
    (listed : l''.listed.Perm l'.listed) (strays : l''.strays = l'.strays) : r.Rearranges l l'' := by
  obtain ⟨headers, parts, clear, yield, slots', listed', strays'⟩ := h
  exact ⟨headers, parts, clear, yield, slots.trans slots', (listed.map _).trans listed',
    strays.trans strays'⟩

theorem slot {slot : HeaderSlot σ} {slot' : HeaderSlot Unit} {moved : List Stmt}
    (h : r.Clears slot slot' moved) :
    r.Rearranges { slots := [slot] } { slots := [slot'], listed := moved.map ((), ·) } := by
  refine ⟨[(slot', moved)], [], .cons h .nil, .nil, rfl, ?_, rfl⟩
  simp [List.map_map, Function.comp_def]

theorem single {s : Stmt} {part : List Stmt} (h : r.Yields (o, s) part) :
    r.Rearranges { listed := [(o, s)] } { listed := part.map ((), ·) } := by
  refine ⟨[], [part], .nil, .cons h .nil, rfl, ?_, rfl⟩
  simp [List.map_map, Function.comp_def]

end Rearranges

-- A place that is no field: the blank name, or a target that denotes no field, with variables for
-- operands that were bound.
def SparesField (r : RedirectContext) (o : σ) (targets : List Expr) (bound : List (String × Expr))
    (e : Expr) : Prop :=
  r.target o e = .ok .blank ∨
    ∃ written ∈ targets, ∃ place, r.target o written = .ok (.plain place) ∧
      (e = place ∨ ∃ span, place.PlaceKept span bound e)

-- The parts of a plan: declarations, an assignment that writes no field, and calls of mutators.
structure Sorts (r : RedirectContext) (o : σ) (targets : List Expr) (p : AssignPlan) : Prop where
  bindings : ∀ s ∈ p.bindings, s.isSimple = true
  plain : ∀ s, p.plain = some s → s.isSimple = true ∧ s.isExpr = false ∧
    ∀ e ∈ s.writes, r.SparesField o targets (p.bindings.flatMap Stmt.bound) e
  mutators : ∀ s ∈ p.mutators, ∃ (info : FieldInfo) (place : Expr) (value : TypedExpr)
    (span : Span), s = info.write r.settings place value span
  kept : p.mutators = [] → p.bindings = [] ∧ ∃ s, p.plain = some s

theorem isSimple_of_statement? {c : Captured} {span : Span} {s : Stmt}
    (h : c.statement? span = some s) : s.isSimple = true := by
  unfold Captured.statement? at h
  dsimp only at h
  grind [Stmt.isSimple]

theorem target_of_isBlank {e : Expr} (h : e.isBlank = true) : r.target o e = .ok .blank := by
  cases e <;> try cases h
  rw [target, if_pos h]
  rfl

theorem sorts_of_formed {span : Span} {temps : Temporaries} {written : List Expr} {ts : List Target}
    {vs : List TypedExpr} {Reread : Expr → Prop} {p : AssignPlan}
    (targets : r.targets o written = .ok ts) (field : ts.any (·.isField) = true)
    (formed : p.Formed r.settings span temps ts vs Reread)
    (bindings : ∀ s ∈ p.bindings, s.isSimple = true) : r.Sorts o written p where
  bindings := bindings
  plain s hs := by
    have plain := formed.plain
    split at plain
    case isFalse => simp [plain] at hs
    case isTrue =>
      obtain ⟨pairs, is, _, places⟩ := plain
      obtain rfl := Option.some.inj (is.symm.trans hs)
      refine ⟨rfl, rfl, fun e he => ?_⟩
      cases blank : e.isBlank with
      | true => exact .inl (target_of_isBlank blank)
      | false =>
        obtain ⟨t, ht, kept⟩ := exists_of_forall₂ places.flip
          (List.mem_filter.2 ⟨he, by simp [blank]⟩)
        cases t with
        | field | blank => cases kept
        | plain place =>
          obtain ⟨w, hw, same⟩ := exists_of_forall₂ (ok_mapM.1 targets).flip (List.mem_filter.1 ht).1
          exact .inr ⟨w, hw, place, same, .inr ⟨span, kept⟩⟩
  mutators s hs := by
    obtain ⟨t, _, mutated⟩ := exists_of_forall₂ formed.mutators.flip hs
    cases t with
    | field =>
      obtain ⟨place, source, _, rfl⟩ := mutated
      exact ⟨_, place, source, span, rfl⟩
    | plain | blank => cases mutated
  kept none := absurd none (formed.mutators_ne_nil field)

theorem SparesField.mono {targets targets' : List Expr} {bound bound' : List (String × Expr)}
    {e : Expr} (h : r.SparesField o targets bound e) (sub : targets ⊆ targets')
    (more : bound ⊆ bound') : r.SparesField o targets' bound' e :=
  h.imp_right fun ⟨written, mem, place, same, kept⟩ =>
    ⟨written, sub mem, place, same, kept.imp_right fun ⟨span, kept⟩ => ⟨span, kept.mono more⟩⟩

-- Where nothing is a field, an assignment keeps its targets.
theorem sparesField_zipWith {written : List Expr} {ts : List Target}
    {bound : List (String × Expr)}
    (targets : List.Forall₂ (fun e t => r.target o e = .ok t) written ts)
    (none : ts.any (·.isField) = false) :
    ∀ e ∈ ts.zipWith (fun t e => t.place e) written, r.SparesField o written bound e := by
  induction targets with
  | nil => exact List.forall_mem_nil _
  | @cons e t written ts head _ ih =>
    rw [List.any_cons, Bool.or_eq_false_iff] at none
    refine List.forall_mem_cons.2 ⟨?_, fun e' he' => ?_⟩
    · cases t with
      | field => cases none.1
      | blank => exact .inl head
      | plain place => exact .inr ⟨e, List.mem_cons_self .., place, head, .inl rfl⟩
    · exact (ih none.2 e' he').mono (List.subset_cons_self ..) (List.Subset.refl _)

theorem sorts_planAssign {span : Span} {written values : List Expr} {p : AssignPlan}
    (h : r.planAssign o span written values temps = .ok (p, temps')) : r.Sorts o written p := by
  obtain ⟨ts, vs, ht, _, formed⟩ := formed_planAssign h
  obtain ⟨ts', vs', ht', _, planned⟩ := planned_of_ok h
  obtain rfl := Except.ok.inj (ht.symm.trans ht')
  cases planned with
  | kept none =>
    exact {
      bindings := List.forall_mem_nil _
      plain := fun s hs => by
        obtain rfl := Option.some.inj hs
        exact ⟨rfl, rfl, sparesField_zipWith (ok_mapM.1 ht) none⟩
      mutators := List.forall_mem_nil _
      kept := fun _ => ⟨rfl, _, rfl⟩ }
  | single => exact sorts_of_formed ht rfl (formed rfl) (List.forall_mem_nil _)
  | split field _ hp =>
    refine sorts_of_formed ht field (formed field) fun s hs => ?_
    obtain rfl := congrArg Prod.fst hp
    rw [planTargets_eq] at hs
    obtain ⟨c, _, hc⟩ := List.mem_filterMap.1 hs
    exact isSimple_of_statement? hc

-- The forms in which an assignment by an operation is kept.
def KeepsForm (form : Expr → Expr → Stmt) : Prop :=
  ∀ target value, (form target value).isSimple = true ∧ (form target value).isExpr = false ∧
    (form target value).writes = [target]

theorem sorts_planCompound {span : Span} {target value : Expr} {op : BinaryOp}
    {form : Expr → Expr → Stmt} {p : AssignPlan} (keeps : KeepsForm form)
    (h : r.planCompound o span target op value form temps = .ok (p, temps')) :
    r.Sorts o [target] p := by
  obtain ⟨t, v, ht, _, planned⟩ := plannedCompound_of_ok h
  cases planned with
  | field =>
    exact {
      bindings := fun s hs => isSimple_of_statement? (Option.mem_toList.1 hs)
      plain := nofun
      mutators := List.forall_mem_singleton.2 ⟨_, _, _, span, rfl⟩
      kept := nofun }
  | kept none =>
    exact {
      bindings := List.forall_mem_nil _
      plain := fun s hs => by
        obtain rfl := Option.some.inj hs
        obtain ⟨simple, noCall, writes⟩ := keeps (t.place target) v.expr
        refine ⟨simple, noCall, writes ▸ ?_⟩
        exact sparesField_zipWith (.cons ht .nil) (by simpa using none)
      mutators := List.forall_mem_nil _
      kept := fun _ => ⟨rfl, _, rfl⟩ }

theorem Sorts.mono {targets targets' : List Expr} {p : AssignPlan} (h : r.Sorts o targets p)
    (sub : targets ⊆ targets') : r.Sorts o targets' p where
  bindings := h.bindings
  plain s hs :=
    have ⟨simple, noCall, spared⟩ := h.plain s hs
    ⟨simple, noCall, fun e he => (spared e he).mono sub (List.Subset.refl _)⟩
  mutators := h.mutators
  kept := h.kept

theorem sorts_keep {targets : List Expr} {s : Stmt} (simple : s.isSimple = true)
    (noCall : s.isExpr = false) (none : s.writes = []) : r.Sorts o targets (.keep s) where
  bindings := List.forall_mem_nil _
  plain s' hs := by
    obtain rfl := Option.some.inj hs
    exact ⟨simple, noCall, none ▸ List.forall_mem_nil _⟩
  mutators := List.forall_mem_nil _
  kept _ := ⟨rfl, _, rfl⟩

theorem Sorts.isSimple {targets : List Expr} {p : AssignPlan} (h : r.Sorts o targets p) :
    ∀ s ∈ p.statements, s.isSimple = true := by
  intro s hs
  simp only [AssignPlan.statements, List.mem_append, Option.mem_toList] at hs
  rcases hs with (binding | plain) | mutator
  · exact h.bindings s binding
  · exact (h.plain s plain).1
  · obtain ⟨_, _, _, _, rfl⟩ := h.mutators s mutator
    rfl

theorem expandCompound_targets (op : BinaryOp) (targets values : List Expr) :
    (Stmt.expandCompound op targets values).1 ⊆ targets := by
  unfold Stmt.expandCompound
  split
  · exact List.cons_subset.2 ⟨List.mem_cons_self .., List.nil_subset _⟩
  · exact List.Subset.refl _

theorem Plans.sorts {s : Stmt} {p : AssignPlan} (h : r.Plans o s p) : r.Sorts o s.targets p := by
  cases h with
  | @assign span targets op values p temps temps' planned =>
    cases op with
    | assign => exact sorts_planAssign planned
    | define =>
      simp only [plan, Redirecting.ok_bind, Redirecting.ok_pure] at planned
      obtain ⟨_, _, _, rfl, _⟩ := planned
      exact sorts_keep rfl rfl rfl
    | compound op =>
      simp only [plan] at planned
      split at planned
      case isTrue =>
        exact (sorts_planAssign planned).mono (expandCompound_targets op targets values)
      case isFalse =>
        split at planned
        case h_1 => exact sorts_planCompound (fun _ _ => ⟨rfl, rfl, rfl⟩) planned
        case h_2 several =>
          obtain rfl := (Redirecting.ok_pure.1 planned).1
          refine sorts_keep rfl rfl ?_
          unfold Stmt.writes
          split <;> grind
  | @step span target increment p temps temps' planned =>
    rw [planStep] at planned
    split at planned
    case isTrue => exact sorts_planAssign planned
    case isFalse => exact sorts_planCompound (fun _ _ => ⟨rfl, rfl, rfl⟩) planned

-- A header that held a simple statement holds an empty one or a simple one that writes no field. If
-- that is a call, it was one before.
def Spared (r : RedirectContext) (slot : HeaderSlot σ) (slot' : HeaderSlot Unit)
    (moved : List Stmt) : Prop :=
  ∀ s, slot.held = some s → s.isSimple = true → ∃ s', slot'.held = some s' ∧
    (s'.isEmpty = true ∨ s'.isSimple = true ∧
      (∀ e ∈ s'.writes, r.SparesField slot.oracle s.targets (moved.flatMap Stmt.bound) e) ∧
      (s'.isExpr = true → ∃ e t, s = .expr e ∧ r.value slot.oracle e = .ok t ∧ s' = .expr t.expr))

theorem Clears.spared {slot : HeaderSlot σ} {slot' : HeaderSlot Unit} {moved : List Stmt}
    (h : r.Clears slot slot' moved) : r.Spared slot slot' moved := by
  intro s held simple
  cases h with
  | none => cases held
  | leaves => exact ⟨_, rfl, .inl rfl⟩
  | stays plans plain =>
    obtain rfl := Option.some.inj held
    obtain ⟨simple, noCall, spared⟩ := plans.sorts.plain _ plain
    refine ⟨_, rfl, .inr ⟨simple, fun e he => (spared e he).mono (List.Subset.refl _) ?_, ?_⟩⟩
    · rw [List.flatMap_append]
      exact List.subset_append_left ..
    · exact fun call => by simp [noCall] at call
  | @expr _ o e t value =>
    obtain rfl := Option.some.inj held
    exact ⟨_, rfl, .inr ⟨rfl, List.forall_mem_nil _, fun _ => ⟨e, t, rfl, value, rfl⟩⟩⟩
  | other alone =>
    obtain rfl := Option.some.inj held
    rcases alone with empty | other
    · exact ⟨_, rfl, .inl empty⟩
    · simp [simple] at other

variable {isPost : Bool}

theorem relocate_clears {place : Header} {span : Span} {s : Stmt} {p : AssignPlan} {m : Relocated}
    (plans : r.Plans o s p) (h : r.relocate place span p = .ok m) :
    r.Clears ⟨isPost, o, some s⟩ ⟨isPost, (), m.header⟩ (m.before ++ m.after) ∧
      ∀ s ∈ m.before ++ m.after, s.isSimple = true := by
  have sorts := plans.sorts
  have moved (moved : m.before ++ m.after = p.bindings ++ p.mutators) :
      ∀ s ∈ m.before ++ m.after, s.isSimple = true := fun s hs =>
    sorts.isSimple s <| by
      rw [moved] at hs
      simp only [AssignPlan.statements, List.mem_append] at hs ⊢
      tauto
  have kept (same : m.header = some (p.plain.getD (.empty span)))
      (all : m.before ++ m.after = p.bindings ++ p.mutators) :
      r.Clears ⟨isPost, o, some s⟩ ⟨isPost, (), m.header⟩ (m.before ++ m.after) := by
    rw [same, all]
    cases plain : p.plain with
    | some s => exact .stays plans plain
    | none =>
      have whole : p.bindings ++ p.mutators = p.statements := by simp [AssignPlan.statements, plain]
      rw [whole]
      exact .leaves plans
  simp only [relocate] at h
  split at h
  case isTrue noField =>
    have none : p.mutators = [] := by simpa [AssignPlan.writesFields] using noField
    obtain ⟨bindings, s, plain⟩ := sorts.kept none
    obtain rfl := ok_pure.1 h
    have all : ([] : List Stmt) ++ [] = p.bindings ++ p.mutators := by rw [none, bindings]
    exact ⟨kept (by rw [plain]; rfl) all, moved all⟩
  case isFalse =>
    split at h
    case h_1 => simp [fail, ok_throw] at h
    case h_2 =>
      split at h
      case isTrue =>
        obtain rfl := ok_pure.1 h
        exact ⟨.leaves plans, sorts.isSimple⟩
      case isFalse =>
        obtain rfl := ok_pure.1 h
        exact ⟨kept rfl rfl, moved rfl⟩
    all_goals
      obtain rfl := ok_pure.1 h
      exact ⟨kept rfl (List.append_nil _), moved (List.append_nil _)⟩

theorem header_clears {place : Header} {held : Option Stmt} {m : Relocated}
    (h : r.header o place held temps = .ok (m, temps')) :
    r.Clears ⟨isPost, o, held⟩ ⟨isPost, (), m.header⟩ (m.before ++ m.after) ∧
      ∀ s ∈ m.before ++ m.after, s.isSimple = true := by
  rcases held with _ | s
  · obtain ⟨rfl, _⟩ := Redirecting.ok_pure.1 h
    exact ⟨.none, List.forall_mem_nil _⟩
  · cases s <;>
      simp only [header, Redirecting.ok_bind, Redirecting.ok_lift, Redirecting.ok_pure] at h
    case assign =>
      obtain ⟨p, _, planned, moved, _⟩ := h
      exact relocate_clears (.assign planned) moved
    case step =>
      obtain ⟨p, _, planned, moved, _⟩ := h
      exact relocate_clears (.step planned) moved
    case expr =>
      obtain ⟨t, _, ⟨value, _⟩, rfl, _⟩ := h
      exact ⟨.expr value, List.forall_mem_nil _⟩
    case empty =>
      obtain ⟨rfl, _⟩ := h
      exact ⟨.other (.inl rfl), List.forall_mem_nil _⟩
    all_goals
      obtain ⟨rfl, _⟩ := h
      exact ⟨.other (.inr rfl), List.forall_mem_nil _⟩

theorem rangeTarget_isSimple {span : Span} {type : Option TypeExpr} {t : Option Target}
    {e : Option Expr} {prelude : List Stmt}
    (h : r.rangeTarget span type t temps = .ok ((e, prelude), temps')) :
    ∀ s ∈ prelude, s.isSimple = true := by
  rcases t with _ | t
  · obtain ⟨same, _⟩ := Redirecting.ok_pure.1 h
    exact (Prod.mk.inj same).2 ▸ List.forall_mem_nil _
  cases t <;>
    simp only [rangeTarget, Redirecting.ok_bind, Redirecting.ok_modifyGet, Redirecting.ok_pure,
      Prod.mk.injEq] at h
  case blank => exact h.1.2 ▸ List.forall_mem_nil _
  case plain =>
    obtain ⟨_, _, _, ⟨_, rfl⟩, _⟩ := h
    exact List.forall_mem_singleton.2 rfl
  case field =>
    obtain ⟨_, _, _, _, _, _, ⟨_, rfl⟩, _⟩ := h
    exact List.forall_mem_singleton.2 rfl

theorem rangeHeader_isSimple {span : Span} {key value : Option Expr} {type : Option StaticType}
    {head : RangeHeader} (h : r.rangeHeader o span key value type temps = .ok (head, temps')) :
    ∀ s ∈ head.prelude, s.isSimple = true := by
  simp only [rangeHeader, Redirecting.ok_bind] at h
  obtain ⟨_, _, _, _, _, _, h⟩ := h
  split at h
  case isTrue =>
    simp only [Redirecting.ok_bind, Redirecting.ok_pure] at h
    obtain ⟨⟨_, first⟩, _, ofKey, ⟨_, second⟩, _, ofValue, rfl, _⟩ := h
    exact List.forall_mem_append.2 ⟨rangeTarget_isSimple ofKey, rangeTarget_isSimple ofValue⟩
  case isFalse =>
    obtain ⟨rfl, _⟩ := Redirecting.ok_pure.1 h
    exact List.forall_mem_nil _

theorem block_span {b b' : Block} (h : r.block o b temps = .ok (b', temps')) :
    b'.span = b.span := by
  cases b
  simp only [block, Redirecting.ok_bind, Redirecting.ok_pure] at h
  obtain ⟨_, _, _, rfl, _⟩ := h
  rfl

theorem Rearranges.of_single {s : Stmt} {part : List Stmt} (h : r.Yields (o, s) part)
    (simple : ∀ s ∈ part, s.isSimple = true) :
    r.Rearranges { listed := [(o, s)] } (Stmt.listLayout () part) :=
  Stmt.listLayout_of_isSimple simple ▸ .single h

mutual

theorem stmt_rearranges {elseIf : Bool} {out : List Stmt} {temps temps' : Temporaries} {o : σ} :
    (s : Stmt) → r.stmt o elseIf s temps = .ok (out, temps') →
      r.Rearranges (Stmt.layout o s) (Stmt.listLayout () out)
  | .empty _, h | .breakLoop _, h | .continueLoop _, h => by
    simp only [stmt, Redirecting.ok_pure] at h
    obtain ⟨rfl, _⟩ := h
    exact .single (.inert rfl)
  | .expr e, h => by
    simp only [stmt, Redirecting.ok_bind, Redirecting.ok_lift, Redirecting.ok_pure] at h
    obtain ⟨t, _, ⟨ht, _⟩, rfl, _⟩ := h
    exact .single (.expr ht)
  | .assign span targets op values, h => by
    simp only [stmt, Redirecting.ok_bind, Redirecting.ok_pure] at h
    obtain ⟨p, _, hp, rfl, _⟩ := h
    exact .of_single (.plan (.assign hp)) (Plans.assign hp).sorts.isSimple
  | .step span target increment, h => by
    simp only [stmt, Redirecting.ok_bind, Redirecting.ok_pure] at h
    obtain ⟨p, _, hp, rfl, _⟩ := h
    exact .of_single (.plan (.step hp)) (Plans.step hp).sorts.isSimple
  | .var span names type values, h => by
    simp only [stmt, Redirecting.ok_bind, Redirecting.ok_lift, Redirecting.ok_pure] at h
    obtain ⟨ts, _, ⟨ht, _⟩, rfl, _⟩ := h
    exact .single (.var ht)
  | .ret span values, h => by
    simp only [stmt, Redirecting.ok_bind, Redirecting.ok_lift, Redirecting.ok_pure] at h
    obtain ⟨ts, _, ⟨ht, _⟩, rfl, _⟩ := h
    exact .single (.ret ht)
  | .block body, h => by
    simp only [stmt, Redirecting.ok_bind, Redirecting.ok_pure] at h
    obtain ⟨body', _, hb, rfl, _⟩ := h
    exact (block_rearranges body hb).of_perm (List.append_nil _) (.of_eq (List.append_nil _))
      (List.append_nil _)
  | .ifElse span init cond body orElse, h => by
    obtain ⟨m, c, body', orElse', _, _, hm, _, hb, ho, rfl⟩ := ok_ifElse h
    obtain ⟨clears, simple⟩ : r.Clears ⟨false, o, init⟩ ⟨false, (), m.header⟩ _ ∧ _ :=
      header_clears hm
    rw [header_after (by split <;> simp) hm, List.append_nil] at clears simple
    rw [Stmt.listLayout_moved simple]
    refine (((Rearranges.slot clears).append (block_rearranges body hb)).append
      (branch_rearranges orElse ho)).of_perm ?_ ?_ ?_
    · rfl
    · simp [Stmt.layout]
    · rfl
  | .forLoop span init cond post body, h => by
    obtain ⟨m, c, mp, body', _, _, hm, _, hp, _, hb, rfl⟩ := ok_forLoop h
    let inner := TypeOracle.declareHeader o init
    obtain ⟨clears, simple⟩ : r.Clears ⟨false, o, init⟩ ⟨false, (), m.header⟩ _ ∧ _ :=
      header_clears hm
    obtain ⟨clearsPost, simplePost⟩ : r.Clears ⟨true, inner, post⟩ ⟨true, (), mp.header⟩ _ ∧ _ :=
      header_clears hp
    rw [header_after (by simp) hm, List.append_nil] at clears simple
    rw [header_before hp, List.nil_append] at clearsPost simplePost
    have out : Stmt.layout () (.forLoop span m.header c mp.header
        (.mk body'.span (body'.statements ++ mp.after))) =
        { slots := [⟨false, (), m.header⟩, ⟨true, (), mp.header⟩] } ++
          (Stmt.blockLayout () body' ++ { listed := mp.after.map ((), ·) }) :=
      congrArg (_ ++ ·) (Stmt.blockLayout_after simplePost ..)
    rw [Stmt.listLayout_moved simple, out]
    refine (((Rearranges.slot clears).append (.slot clearsPost)).append
      (block_rearranges body hb)).of_perm ?_ ?_ ?_
    · simp
    · simp only [Layout.listed_append, List.nil_append, List.append_assoc]
      exact .append_left _ List.perm_append_comm
    · simp
  | .range span key value define iterable body, h => by
    obtain ⟨t, head, body', _, ht, hh, hb, rfl⟩ := ok_range rfl h
    obtain ⟨yields, simple⟩ : r.Yields (o, .range span key value define iterable (.mk body.span []))
        (.range span head.key head.value head.define t.expr (.mk body.span []) :: head.prelude) ∧
        ∀ s ∈ head.prelude, s.isSimple = true := by
      cases define with
      | true =>
        obtain ⟨rfl, _⟩ := hh
        exact ⟨.define ht, List.forall_mem_nil _⟩
      | false => exact ⟨.range ht hh, rangeHeader_isSimple hh⟩
    have out : Stmt.layout () (.range span head.key head.value head.define t.expr
        (.mk body'.span (head.prelude ++ body'.statements))) =
        { listed := [((), .range span head.key head.value head.define t.expr (.mk body'.span []))] } ++
          (({ listed := head.prelude.map ((), ·) } : Layout Unit) ++ Stmt.blockLayout () body') :=
      congrArg (_ ++ ·) (Stmt.blockLayout_before simple ..)
    rw [Stmt.listLayout_single, out, block_span hb]
    refine ((Rearranges.single yields).append (block_rearranges body hb)).of_perm ?_ ?_ ?_
    · simp
    · simp
    · simp
  | .switch span init tag cases, h => by
    obtain ⟨m, t, cases', _, hm, _, hc, rfl⟩ := ok_switch h
    obtain ⟨clears, simple⟩ : r.Clears ⟨false, o, init⟩ ⟨false, (), m.header⟩ _ ∧ _ :=
      header_clears hm
    rw [header_after (by simp) hm, List.append_nil] at clears simple
    rw [Stmt.listLayout_moved simple]
    refine ((Rearranges.slot clears).append (cases_rearrange cases hc)).of_perm ?_ ?_ ?_
    · rfl
    · simp [Stmt.layout]
    · rfl
termination_by structural s => s

theorem branch_rearranges {out : Option Stmt} {temps temps' : Temporaries} {o : σ} :
    (s : Option Stmt) → r.branch o s temps = .ok (out, temps') →
      r.Rearranges (Stmt.branchLayout o s) (Stmt.branchLayout () out)
  | none, h => by
    obtain ⟨rfl, _⟩ := Redirecting.ok_pure.1 h
    exact .nil
  | some s, h => by
    have walked {s' : Stmt} (hs : r.stmt o true s temps = .ok ([s'], temps')) :
        r.Rearranges (Stmt.layout o s) (Stmt.layout () s') :=
      Stmt.listLayout_single s' ▸ stmt_rearranges s hs
    cases s
    case ifElse =>
      obtain ⟨s', rfl, hs⟩ | ⟨_, _, stray⟩ := ok_branch h
      · obtain ⟨m, _, _, _, _, _, hm, _, _, _, same⟩ := ok_ifElse hs
        rw [header_elseIf (by simpa using hm)] at same
        obtain rfl := List.singleton_inj.1 same
        exact walked hs
      · exact stray.elim
    case block =>
      obtain ⟨s', rfl, hs⟩ | ⟨_, _, stray⟩ := ok_branch h
      · have same := hs
        simp only [stmt, Redirecting.ok_bind, Redirecting.ok_pure] at same
        obtain ⟨_, _, _, same, _⟩ := same
        obtain rfl := List.singleton_inj.1 same
        exact walked hs
      · exact stray.elim
    all_goals
      obtain ⟨rfl, _⟩ := Redirecting.ok_pure.1 h
      exact ⟨[], [], .nil, .nil, rfl, .nil, rfl⟩
termination_by structural s => s

theorem block_rearranges {out : Block} {temps temps' : Temporaries} {o : σ} :
    (b : Block) → r.block o b temps = .ok (out, temps') →
      r.Rearranges (Stmt.blockLayout o b) (Stmt.blockLayout () out)
  | .mk span statements, h => by
    simp only [block, Redirecting.ok_bind, Redirecting.ok_pure] at h
    obtain ⟨ss, _, hs, rfl, _⟩ := h
    exact stmts_rearrange statements hs
termination_by structural s => s

theorem stmts_rearrange {out : List Stmt} {temps temps' : Temporaries} {o : σ} :
    (ss : List Stmt) → r.stmts o ss temps = .ok (out, temps') →
      r.Rearranges (Stmt.listLayout o ss) (Stmt.listLayout () out)
  | [], h => by
    obtain ⟨rfl, _⟩ := Redirecting.ok_pure.1 h
    exact .nil
  | s :: rest, h => by
    simp only [stmts, Redirecting.ok_bind, Redirecting.ok_pure] at h
    obtain ⟨first, _, hf, others, _, hr, rfl, _⟩ := h
    rw [Stmt.listLayout_append]
    exact (stmt_rearranges s hf).append (stmts_rearrange rest hr)
termination_by structural s => s

theorem cases_rearrange {out : List Case} {temps temps' : Temporaries} {o : σ} :
    (cs : List Case) → r.caseList o cs temps = .ok (out, temps') →
      r.Rearranges (Stmt.casesLayout o cs) (Stmt.casesLayout () out)
  | [], h => by
    obtain ⟨rfl, _⟩ := Redirecting.ok_pure.1 h
    exact .nil
  | .mk span values body :: rest, h => by
    simp only [caseList, Redirecting.ok_bind, Redirecting.ok_lift, Redirecting.ok_pure] at h
    obtain ⟨ts, _, ⟨_, _⟩, body', _, hb, others, _, hr, rfl, _⟩ := h
    exact (stmts_rearrange body hb).append (cases_rearrange rest hr)
termination_by structural s => s

end

theorem Plans.isSimple {s : Stmt} {p : AssignPlan} (h : r.Plans o s p) : s.isSimple = true := by
  cases h <;> rfl

theorem Clears.kind {slot : HeaderSlot σ} {slot' : HeaderSlot Unit} {moved : List Stmt}
    (h : r.Clears slot slot' moved) :
    (slot'.isPost, slot'.held.map Stmt.isSimple) = (slot.isPost, slot.held.map Stmt.isSimple) := by
  cases h with
  | none | expr | other => rfl
  | stays plans plain => simp [plans.isSimple, (plans.sorts.plain _ plain).1]
  | leaves plans => rw [Option.map_some, Option.map_some, plans.isSimple]; rfl

theorem Rearranges.kinds {l : Layout σ} {l' : Layout Unit} (h : r.Rearranges l l') :
    l'.kinds = l.kinds := by
  obtain ⟨headers, _, clears, _, slots, -⟩ := h
  rw [Layout.kinds, Layout.kinds, slots, List.map_map]
  generalize l.slots = before at clears
  clear slots
  induction clears with
  | nil => rfl
  | cons head _ ih => exact congrArg₂ _ head.kind ih

end RedirectContext

-- Redirection changes no header's kind, so that methods that are parsed keep simple statements
-- there: a header that held a statement holds an empty one or a simple one that writes no field. All
-- else that is planned for its statement stands in lists, each part once, together with what the
-- members of lists become. So calls of mutators that are added stand in lists only, and none is lost
-- on the way out of a header. A target is a field if the walk resolves it to one, also where a name
-- that a loop over elements has bound still hides another one after the loop.
theorem FuncDecl.redirect_rearranges {f g : FuncDecl} {catalog : Catalog} {methods : MethodTable}
    {settings : Settings} (h : f.redirect catalog methods settings = .ok g) :
    (Stmt.blockLayout () g.body).kinds = (Stmt.blockLayout () f.body).kinds ∧
    (∀ source fs, parseAll source = .ok fs → f ∈ fs → (Stmt.blockLayout () g.body).Legal) ∧
    ∃ scope, f.redirectScope catalog methods = .ok scope ∧
      let r : RedirectContext := ⟨f.name, scope, settings⟩
      let before := Stmt.blockLayout (TypeContext.ofMethod catalog methods f.expand) f.expand.body
      let after := Stmt.blockLayout () g.body
      ∃ (headers : List (HeaderSlot Unit × List Stmt)) (parts : List (List Stmt)),
        List.Forall₂ (fun slot h => r.Clears slot h.1 h.2 ∧ r.Spared slot h.1 h.2)
          before.slots headers ∧
        List.Forall₂ r.Yields before.listed parts ∧
        after.slots = headers.map (·.1) ∧
        (after.listed.map (·.2)).Perm (headers.flatMap (·.2) ++ parts.flatten) ∧
        after.strays = before.strays := by
  obtain ⟨scope, hs⟩ := redirectScope_of_redirect h
  rw [redirect_eq, hs] at h
  simp only [Except.bind, redirectIn, ok_bind, ok_pure] at h
  obtain ⟨⟨body, temps⟩, hb, rfl⟩ := h
  have rearranges := RedirectContext.block_rearranges _ hb
  have kinds := rearranges.kinds.trans (Stmt.kinds_expandBlock _ () f.body)
  refine ⟨kinds, fun source fs parsed mem => ?_, scope, hs, ?_⟩
  · have legal := legal_of_parseAll parsed f mem
    rwa [Layout.Legal, ← kinds] at legal
  · obtain ⟨headers, parts, clears, rest⟩ := rearranges
    exact ⟨headers, parts, clears.imp fun _ _ clears => ⟨clears, clears.spared⟩, rest⟩

-- Writes in the three headers of `if x, c.value = 1, 2; b \x7b\x7d` and
-- `for c.value = 0; b; c.value++ \x7b x++ \x7d`, one of them beside a write to a variable.
theorem FuncDecl.redirect_rearranges_counter :
    let catalog := (Catalog.build .counter .standard {}).value
    let x : Expr := .ident .nowhere "x"
    let value : Expr := .select .nowhere (.ident .nowhere "c") "value"
    let number (n : Int64) : Expr := .literal .nowhere (.int n)
    let write (targets values : List Expr) : Stmt := .assign .nowhere targets .assign values
    let body : List Stmt :=
      [.ifElse .nowhere (write [x, value] [number 1, number 2]) (.ident .nowhere "b") (.mk .nowhere [])
        none,
       .forLoop .nowhere (write [value] [number 0]) (some (.ident .nowhere "b"))
        (some (.step .nowhere value true)) (.mk .nowhere [.step .nowhere x true])]
    let f : FuncDecl := ⟨none, some ⟨"c", .pointer (.named "Counter")⟩, "F", [], [], [],
      .mk .nowhere body, .nowhere⟩
    ∃ g, f.redirect catalog ⟨[]⟩ .standard = .ok g ∧
      let after := Stmt.blockLayout () g.body
      after.kinds = [(false, some true), (false, some true), (true, some true)] ∧
      ∃ moved parts : List (List Stmt), moved.length = 3 ∧ parts.length = 1 ∧
        (after.listed.map (·.2)).Perm (moved.flatten ++ parts.flatten) ∧ after.listed.length = 4 := by
  intro catalog x value number write body f
  have scope : f.redirectScope catalog ⟨[]⟩ = .ok ⟨catalog, ["Counter"]⟩ :=
    redirectScope_isolated (e := catalog.entities.head (by decide)) rfl
      (by decide +kernel) (by decide)
  obtain ⟨g, redirected⟩ : ∃ g, f.redirect catalog ⟨[]⟩ .standard = .ok g := by
    rw [redirect_eq, scope]
    exact exists_ok (by decide +kernel)
  have all : (f.redirect catalog ⟨[]⟩ .standard).toOption.map
      (fun g => (Stmt.blockLayout () g.body).listed.length) = some 4 := by
    rw [redirect_eq, scope]
    decide +kernel
  rw [redirected] at all
  obtain ⟨kinds, -, _, _, headers, parts, clears, yields, -, rearranged, -⟩ :=
    redirect_rearranges redirected
  refine ⟨g, redirected, kinds, headers.map (·.2), parts, ?_, ?_, ?_, Option.some.inj all⟩
  · rw [List.length_map]
    exact (List.Forall₂.length_eq clears).symm
  · exact (List.Forall₂.length_eq yields).symm
  · rwa [List.flatMap_def] at rearranged

end FieldAccess
