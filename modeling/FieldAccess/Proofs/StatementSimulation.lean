import FieldAccess.Proofs.DeclaredTemporaries
import FieldAccess.Proofs.ControlSimulation
import FieldAccess.Proofs.RangeSimulation

namespace FieldAccess

namespace Stmt

mutual

-- Statements without calls and struct literals that use variables in a certain way and declare none
-- with fields. Where a statement writes fields, it writes nothing else.
def Fits (u : Usage) : Stmt → Prop
  | .var _ names _ values => (∀ x ∈ names, u.Free x) ∧ ∀ e ∈ values, e.Fits u
  | .block body => blockFits u body
  | .ifElse _ init cond body orElse =>
    (∀ s ∈ init, s.SimplyFits u) ∧ cond.Fits u ∧ blockFits u body ∧ branchFits u orElse
  | .forLoop _ init cond post body =>
    (∀ s ∈ init, s.SimplyFits u) ∧ (∀ e ∈ cond, e.Fits u) ∧ FitsPost u post body.statements ∧
      blockFits u body
  | .range _ key value define iterable body =>
    ((∀ e ∈ key, u.Binds define e) ∧ ∀ e ∈ value, u.Binds define e) ∧ iterable.Fits u ∧
      blockFits u body
  | .switch _ init tag cases =>
    (∀ s ∈ init, s.SimplyFits u) ∧ (∀ e ∈ tag, e.Fits u) ∧ casesFit u cases
  | .ret _ values => ∀ e ∈ values, e.Fits u
  | .breakLoop _ | .continueLoop _ => True
  | s => s.SimplyFits u

-- An else branch is another `if` or a block.
def branchFits (u : Usage) : Option Stmt → Prop
  | none => True
  | some s => Fits u s ∧ match s with
    | .ifElse _ _ _ _ _ | .block _ => True
    | _ => False

def blockFits (u : Usage) : Block → Prop
  | .mk _ statements => listFits u statements

def listFits (u : Usage) : List Stmt → Prop
  | [] => True
  | s :: rest => Fits u s ∧ listFits u rest

def casesFit (u : Usage) : List Case → Prop
  | [] => True
  | .mk _ values body :: rest => (∀ e ∈ values, e.Fits u) ∧ listFits u body ∧ casesFit u rest

end

section

variable {u : Usage} {s : Stmt}

theorem boundNames_expand (s : Stmt) : s.expand.boundNames = s.boundNames := by
  cases s with
  | assign _ _ op =>
    cases op with
    | compound => rw [expand]; split <;> rfl
    | _ => rfl
  | step => rw [expand]; split <;> rfl
  | range _ _ _ define => cases define <;> rfl
  | _ => rfl

theorem SimplyFits.free (fits : s.SimplyFits u) : ∀ x ∈ s.boundNames, u.Free x := by
  cases s with
  | assign _ _ op =>
    cases op with
    | define => exact fits.2
    | _ => exact List.forall_mem_nil _
  | _ => first | exact List.forall_mem_nil _ | exact fits.elim

-- What is declared has no fields.
theorem Fits.free (fits : s.Fits u) : ∀ x ∈ s.boundNames, u.Free x := by
  cases s with
  | var => exact fits.1
  | assign => exact SimplyFits.free fits
  | range _ key value define iterable body =>
    cases define with
    | false => exact List.forall_mem_nil _
    | true =>
      intro x hx
      obtain ⟨e, he, named⟩ := List.mem_filterMap.1 hx
      have binds : u.Binds true e := (List.mem_append.1 he).elim
        (fun he => fits.1.1 e (Option.mem_toList.1 he)) fun he => fits.1.2 e (Option.mem_toList.1 he)
      obtain ⟨y, hy, free⟩ := binds
      exact Option.some.inj (named.symm.trans hy) ▸ free
  | _ => exact List.forall_mem_nil _

end

end Stmt

-- What is bound without fields leaves those of the others known.
theorem Usage.Agrees.bindAll {u : Usage} {r : RedirectContext} {c : TypeContext} {w : View}
    (h : u.Agrees r c w) {bs : List LocalBinding} (free : ∀ b ∈ bs, u.Free b.name) :
    u.Agrees r (c.bindAll bs) w where
  receiver := h.receiver
  strays := h.strays
  field {x member} hf := by
    obtain ⟨type, entity, info, k, known, stores, resolves, seen⟩ := h.field hf
    have same : TypeContext.Agrees [x] c (c.bindAll bs) := c.agrees_bindAll fun b hb =>
      .inr fun mem => (free b hb).field member (List.mem_singleton.1 mem ▸ hf)
    refine ⟨type, entity, info, k, ?_, stores, fun span => ?_, seen⟩
    · rw [same.lookup x (List.mem_singleton_self x), known]
    · rw [RedirectContext.resolve_eq same, resolves span]

theorem Usage.Agrees.declare {u : Usage} {r : RedirectContext} {c : TypeContext} {w : View}
    (h : u.Agrees r c w) {s : Stmt} (free : ∀ x ∈ s.boundNames, u.Free x) :
    u.Agrees r (TypeOracle.declare c s.expand) w :=
  h.bindAll fun _ hb => free _ (s.boundNames_expand ▸ TypeContext.mem_bindingsOf hb)

theorem Usage.Agrees.declareHeader {u : Usage} {r : RedirectContext} {c : TypeContext} {w : View}
    (h : u.Agrees r c w) {header : Option Stmt} (fits : ∀ s ∈ header, s.SimplyFits u) :
    u.Agrees r (TypeOracle.declareHeader c (Stmt.expandOption header)) w := by
  cases header with
  | none => exact h
  | some s => exact h.declare (fits s rfl).free

-- The vocabulary of all code.
def Vocabulary.whole : Vocabulary :=
  ⟨fun _ => True, fun _ => True, fun _ => True⟩

namespace Vocabulary

theorem keepsExpr_whole (e : Expr) : e.Keeps whole :=
  fun _ _ => ⟨fun _ _ => trivial, fun _ _ => trivial⟩

theorem keeps_whole (s : Stmt) : s.Keeps whole :=
  fun _ _ => ⟨fun _ _ => trivial, fun _ _ => trivial, fun e _ => keepsExpr_whole e⟩

-- Names that are out of use stay so.
theorem whole_serves (catalog : Catalog) (settings : Settings) (N : List String) :
    whole.Serves catalog settings (N ⊆ ·) where
  blank := trivial
  value := trivial
  accessors := fun _ _ _ => trivial
  enums := fun _ _ _ _ => ⟨trivial, trivial⟩
  temporaries := fun _ _ _ sub => ⟨List.subset_cons_of_subset _ sub, trivial, trivial⟩

end Vocabulary

namespace Step

variable {S : Sides} {N : List String} {u : Usage} {r : RedirectContext} {c : TypeContext}
  {call : CallHandler} {holds : Machine → Bool} {rounds : Nat} {base : List (Nat × Nat)}

theorem declare_simulates (sound : S.Sound) (agrees : ∀ f f' m, u.Agrees r c (S.view N f f' m))
    {xs : List String} (free : ∀ x ∈ xs, u.Free x) (type : Option TypeExpr) {values : List Expr}
    {vs : List TypedExpr} (h : r.values c values = .ok vs) (fits : ∀ e ∈ values, e.Fits u)
    (names : ∀ e ∈ values, e.names ⊆ N) :
    Simulates S N base (declare S.source call xs type values)
      (declare S.target S.call xs type (vs.map (·.expr))) (Flow.Alike S) := by
  have other : ∀ x ∈ xs, S.receiver ≠ some x := fun x hx =>
    (agrees default default default).receiver ▸ (free x hx).receiver
  have ends {maps : List (Nat × Nat)} {ws ws' : List Value}
      (alike : List.Forall₂ (Value.Alike S.loose maps) ws ws') :
      Simulates S N maps (do defineAll xs ws; return .next) (do defineAll xs ws'; return .next)
        (Flow.Alike S) :=
    .bind (defineAll_simulates other alike) fun _ _ _ _ _ => .pure fun _ _ => .next
  unfold declare
  cases values with
  | nil =>
    obtain rfl := FieldAccess.ok_pure.1 h
    rw [funext sound.zero]
    refine .bind (R := fun maps => List.Forall₂ (Value.Alike S.loose maps)) (.pure fun maps _ => ?_)
      fun _ _ _ _ alike => ends alike
    refine List.forall₂_same.2 fun v hv => List.eq_of_mem_replicate hv ▸ ?_
    cases type with
    | none => exact .nil
    | some type => exact Program.zero_alike ..
  | cons e values =>
    obtain ⟨t, ts, -, -, rfl⟩ := List.forall₂_cons_left_iff.1 (RedirectContext.ok_values.1 h)
    exact .bind (evalFor_simulates sound agrees xs.length h fits names) fun _ _ _ _ alike =>
      ends alike

theorem ret_simulates (sound : S.Sound) (agrees : ∀ f f' m, u.Agrees r c (S.view N f f' m))
    (span : Span) {values : List Expr} {vs : List TypedExpr} (h : r.values c values = .ok vs)
    (fits : ∀ e ∈ values, e.Fits u) (names : ∀ e ∈ values, e.names ⊆ N) :
    Simulates S N base (exec S.source call rounds (.ret span values))
      (exec S.target S.call rounds (.ret span (vs.map (·.expr)))) (Flow.Alike S) := by
  have each := RedirectContext.ok_values.1 h
  have ends {maps : List (Nat × Nat)} {ws ws' : List Value}
      (alike : List.Forall₂ (Value.Alike S.loose maps) ws ws') :
      Simulates S N maps (return .returns ws) (return .returns ws') (Flow.Alike S) :=
    .pure fun _ sub => .returns (alike.imp fun _ _ hv => hv.mono (List.Subset.refl _) sub)
  have all : Simulates S N base
      (reading fun frame => Exec.all (Exec.actions S.source call frame values))
      (reading fun frame => Exec.all (Exec.actions S.target S.call frame (vs.map (·.expr))))
      fun maps => List.Forall₂ (Value.Alike S.loose maps) :=
    .reading (fun _ => Exec.all_onlyAllocates _ _ _ fun e he => Expr.isCallFree_of_fits e (fits e he))
      fun f f' m => Exec.all_mimics sound (agrees f f' m) each fits names (.inl rfl)
  cases each with
  | nil => exact .bind all fun _ _ _ _ alike => ends alike
  | @cons e t es ts head tail =>
    cases tail with
    | nil =>
      exact .bind (evalAll_simulates sound agrees head (fits e (by simp)) (names e (by simp)))
        fun _ _ _ _ alike => ends alike
    | cons => exact .bind all fun _ _ _ _ alike => ends alike

end Step

namespace RedirectContext

section

variable {σ : Type} [TypeOracle σ] {r : RedirectContext} {o : σ} {N : List String}
  {temps temps' : Temporaries} (covers : N ⊆ temps.taken)

include covers

theorem header_covers {place : Header} {s : Option Stmt} {m : Relocated}
    (h : r.header o place s temps = .ok (m, temps')) : N ⊆ temps'.taken :=
  (header_ensures (Vocabulary.whole_serves ..) place (fun s _ => Vocabulary.keeps_whole s) _ _ _ covers
    h).1

theorem rangeHeader_covers {span : Span} {key value : Option Expr} {type : Option StaticType}
    {head : RangeHeader} (h : r.rangeHeader o span key value type temps = .ok (head, temps')) :
    N ⊆ temps'.taken :=
  (rangeHeader_ensures (Vocabulary.whole_serves ..) type (fun e _ => Vocabulary.keepsExpr_whole e)
    (fun e _ => Vocabulary.keepsExpr_whole e) _ _ _ covers h).1

theorem stmt_covers {elseIf : Bool} {s : Stmt} {out : List Stmt}
    (h : r.stmt o elseIf s temps = .ok (out, temps')) : N ⊆ temps'.taken :=
  (stmt_ensures (Vocabulary.whole_serves ..) s (Vocabulary.keeps_whole s) _ _ _ covers h).1

theorem stmts_covers {ss out : List Stmt} (h : r.stmts o ss temps = .ok (out, temps')) :
    N ⊆ temps'.taken :=
  (stmts_ensure (Vocabulary.whole_serves ..) ss (fun s _ => Vocabulary.keeps_whole s) _ _ _ covers h).1

end

variable {S : Sides} {N : List String} {u : Usage} {r : RedirectContext} {call : CallHandler}
  {holds : Machine → Bool} {rounds : Nat}

-- A statement that is planned.
theorem planned_simulates (sound : S.Sound) (kinds : ∀ m, holds m = true → S.InKind m) {s : Stmt}
    {span : Span} {targets values : List Expr} {op : AssignOp} {c : TypeContext} {elseIf : Bool}
    {temps temps' : Temporaries} {out : List Stmt}
    (agrees : ∀ f f' m, u.Agrees r c (S.view N f f' m)) (covers : N ⊆ temps.taken)
    (fits : s.SimplyFits u) (expanded : s.expand = .assign span targets op values)
    (names : s.expand.names ⊆ N) (h : r.stmt c elseIf s.expand temps = .ok (out, temps')) :
    Step.Simulates S N [] (Step.watched S.source call rounds holds s)
      (Step.sequence (Step.steps S.target S.call rounds out)) (Flow.Alike S) := by
  rw [expanded] at h
  simp only [stmt, Redirecting.ok_bind, Redirecting.ok_pure] at h
  obtain ⟨p, _, planned, rfl, -⟩ := h
  rw [fits.watched_eq]
  exact (plan_follows rounds sound agrees covers fits expanded names planned).listed kinds

-- A statement that stays one.
theorem unchanged {s s' : Stmt}
    (h : Step.Simulates S N [] (Step.exec S.source call rounds s) (Step.exec S.target S.call rounds s')
      (Flow.Alike S)) :
    Step.Simulates S N []
      (do let flow ← Step.exec S.source call rounds s; Step.watch holds; return flow)
      (Step.sequence (Step.steps S.target S.call rounds [s'])) (Flow.Alike S) := by
  rw [Step.steps, Step.steps, Step.sequence_single]
  exact h.of_mayStop (.watched _)

mutual

-- By induction on the statement.
theorem stmt_simulates (sound : S.Sound) (kinds : ∀ m, holds m = true → S.InKind m)
    (s : Stmt) (fits : s.Fits u) (names : s.expand.names ⊆ N) {c : TypeContext}
    {elseIf : Bool} {temps temps' : Temporaries} {out : List Stmt}
    (agrees : ∀ f f' m, u.Agrees r c (S.view N f f' m)) (covers : N ⊆ temps.taken)
    (h : r.stmt c elseIf s.expand temps = .ok (out, temps')) :
    Step.Simulates S N [] (Step.watched S.source call rounds holds s)
      (Step.sequence (Step.steps S.target S.call rounds out)) (Flow.Alike S) := by
  cases s with
  | empty =>
    obtain ⟨rfl, -⟩ := Redirecting.ok_pure.1 h
    exact unchanged (.pure fun _ _ => .next)
  | breakLoop =>
    obtain ⟨rfl, -⟩ := Redirecting.ok_pure.1 h
    exact unchanged (.pure fun _ _ => .breaks)
  | continueLoop =>
    obtain ⟨rfl, -⟩ := Redirecting.ok_pure.1 h
    exact unchanged (.pure fun _ _ => .continues)
  | expr e =>
    simp only [Stmt.expand, stmt, Redirecting.ok_bind, Redirecting.ok_lift, Redirecting.ok_pure] at h
    obtain ⟨t, _, ⟨ht, -⟩, rfl, -⟩ := h
    exact unchanged (.bind (Step.evalAll_simulates sound agrees ht fits names) fun _ _ _ _ _ =>
      .pure fun _ _ => .next)
  | var span xs type values =>
    simp only [Stmt.expand, stmt, Redirecting.ok_bind, Redirecting.ok_lift, Redirecting.ok_pure] at h
    obtain ⟨vs, _, ⟨hv, -⟩, rfl, -⟩ := h
    exact unchanged (Step.declare_simulates sound agrees fits.1 type hv fits.2 fun e he =>
      List.Subset.trans (subset_of_mem he) (List.append_subset.1 names).2)
  | ret span values =>
    simp only [Stmt.expand, stmt, Redirecting.ok_bind, Redirecting.ok_lift, Redirecting.ok_pure] at h
    obtain ⟨vs, _, ⟨hv, -⟩, rfl, -⟩ := h
    exact unchanged (Step.ret_simulates sound agrees span hv fits fun e he =>
      List.Subset.trans (subset_of_mem he) names)
  | assign span targets op values =>
    cases op with
    | assign => exact planned_simulates sound kinds agrees covers fits rfl names h
    | define => exact planned_simulates sound kinds agrees covers fits rfl names h
    | compound op =>
      have repeatable : Stmt.areRepeatable targets = true := List.all_eq_true.2 fun e he =>
        Expr.isCallFree_of_fits e (fits.2 e (List.mem_append_left _ he))
      exact planned_simulates sound kinds agrees covers fits
        (by rw [Stmt.expand, if_pos repeatable]) names h
  | step span target increment =>
    exact planned_simulates sound kinds agrees covers fits
      (by rw [Stmt.expand, if_pos (Expr.isCallFree_of_fits target fits)]) names h
  | block body =>
    obtain ⟨_, statements⟩ := body
    simp only [Stmt.expand, stmt, Stmt.expandBlock, block, Redirecting.ok_bind, Redirecting.ok_pure]
      at h
    obtain ⟨_, _, ⟨out', _, inner, rfl, rfl⟩, rfl, -⟩ := h
    rw [Step.steps, Step.steps, Step.sequence_single]
    exact .inScope (stmts_simulate sound kinds statements fits names agrees covers inner)
  | ifElse span init cond body orElse =>
    obtain ⟨_, statements⟩ := body
    obtain ⟨fitsInit, fitsCond, fitsBody, fitsElse⟩ := fits
    obtain ⟨names, namesElse⟩ := List.append_subset.1 names
    obtain ⟨names, namesBody⟩ := List.append_subset.1 names
    obtain ⟨namesInit, namesCond⟩ := List.append_subset.1 names
    obtain ⟨m, t, body', orElse', _, _, hm, ht, hb, ho, rfl⟩ := ok_ifElse h
    simp only [Stmt.expandBlock, block, Redirecting.ok_bind, Redirecting.ok_pure] at hb
    obtain ⟨out', _, hb, rfl, rfl⟩ := hb
    have within f f' m := (agrees f f' m).declareHeader fitsInit
    have covers₁ := header_covers covers hm
    rw [Step.steps_append]
    refine initializer_simulates rounds sound agrees covers (by split <;> decide) fitsInit namesInit
      kinds hm ?_
    refine .bind (Step.check_simulates sound within ht fitsCond namesCond) fun _ b _ _ same => ?_
    subst same
    cases b with
    | true =>
      exact .base_mono (.inScope (stmts_simulate sound kinds statements fitsBody namesBody within
        covers₁ hb)) (List.nil_subset _)
    | false =>
      exact .base_mono (branch_simulates sound kinds orElse fitsElse namesElse within
        (stmts_covers covers₁ hb) ho) (List.nil_subset _)
  | forLoop span init cond post body =>
    obtain ⟨_, statements⟩ := body
    obtain ⟨fitsInit, fitsCond, fitsPost, fitsBody⟩ := fits
    obtain ⟨names, namesBody⟩ := List.append_subset.1 names
    obtain ⟨names, namesPost⟩ := List.append_subset.1 names
    obtain ⟨namesInit, namesCond⟩ := List.append_subset.1 names
    obtain ⟨m, t, mp, body', _, _, hm, ht, hp, reaches, hb, rfl⟩ := ok_forLoop h
    simp only [Stmt.expandBlock, block, Redirecting.ok_bind, Redirecting.ok_pure] at hb
    obtain ⟨out', _, hb, rfl, rfl⟩ := hb
    have within f f' m := (agrees f f' m).declareHeader fitsInit
    have covers₁ := header_covers covers hm
    exact forLoop_simulates sound agrees within kinds covers covers₁ fitsInit fitsCond fitsPost
      namesInit (fun e he => List.Subset.trans (subset_of_mem (Option.mem_toList.2 he)) namesCond)
        namesPost hm ht
      hp (fun moves => Stmt.listContinues_expand statements ▸ reaches moves)
      (stmts_simulate sound kinds statements fitsBody namesBody within (header_covers covers₁ hp) hb)
  | range span key value define iterable body =>
    obtain ⟨_, statements⟩ := body
    obtain ⟨binds, fitsItems, fitsBody⟩ := fits
    have fitsAll : (Stmt.range span key value define iterable (.mk ‹_› statements)).Fits u :=
      ⟨binds, fitsItems, fitsBody⟩
    obtain ⟨names, namesBody⟩ := List.append_subset.1 names
    obtain ⟨names, namesItems⟩ := List.append_subset.1 names
    obtain ⟨namesKey, namesValue⟩ := List.append_subset.1 names
    obtain ⟨t, head, body', temps₁, ht, hh, hb, rfl⟩ := ok_range rfl h
    simp only [Stmt.expandBlock, block, Redirecting.ok_bind, Redirecting.ok_pure] at hb
    obtain ⟨out', _, hb, rfl, rfl⟩ := hb
    have within f f' m := (agrees f f' m).declare fitsAll.free
    have covers₁ : N ⊆ temps₁.taken := by
      split at hh
      case isTrue => exact hh.2 ▸ covers
      case isFalse => exact rangeHeader_covers covers hh
    rw [Step.steps, Step.steps, Step.sequence_single]
    exact Step.range_simulates rounds sound agrees within kinds covers ht fitsItems namesItems binds
      ⟨fun e he => List.Subset.trans (subset_of_mem (Option.mem_toList.2 he)) namesKey,
        fun e he => List.Subset.trans (subset_of_mem (Option.mem_toList.2 he)) namesValue⟩ hh
      (stmts_simulate sound kinds statements fitsBody namesBody within covers₁ hb)
  | switch span init tag cases =>
    obtain ⟨fitsInit, fitsTag, fitsCases⟩ := fits
    obtain ⟨names, namesCases⟩ := List.append_subset.1 names
    obtain ⟨namesInit, namesTag⟩ := List.append_subset.1 names
    obtain ⟨m, t, cases', _, hm, ht, hc, rfl⟩ := ok_switch h
    have within f f' m := (agrees f f' m).declareHeader fitsInit
    obtain ⟨values, bodies⟩ := cases_simulate sound kinds cases fitsCases namesCases within
      (header_covers covers hm) hc
    rw [Step.steps_append]
    refine initializer_simulates rounds sound agrees covers (by decide) fitsInit namesInit kinds hm ?_
    exact Step.cases_simulate sound within values bodies ht fitsTag fun e he =>
      List.Subset.trans (subset_of_mem (Option.mem_toList.2 he)) namesTag
termination_by structural s

theorem branch_simulates (sound : S.Sound) (kinds : ∀ m, holds m = true → S.InKind m)
    (s : Option Stmt) (fits : Stmt.branchFits u s)
    (names : namesOfOption (Stmt.expandOption s) ⊆ N) {c : TypeContext} {temps temps' : Temporaries}
    {out : Option Stmt} (agrees : ∀ f f' m, u.Agrees r c (S.view N f f' m))
    (covers : N ⊆ temps.taken) (h : r.branch c (Stmt.expandOption s) temps = .ok (out, temps')) :
    Step.Simulates S N [] (Step.watchedOption S.source call rounds holds s)
      (Step.execOption S.target S.call rounds out) (Flow.Alike S) := by
  cases s with
  | none =>
    obtain ⟨rfl, -⟩ := Redirecting.ok_pure.1 h
    exact .pure fun _ _ => .next
  | some s =>
    rcases ok_branch h with ⟨s', rfl, run⟩ | ⟨-, -, other⟩
    · have simulates := stmt_simulates sound kinds s fits.1 names agrees covers run
      rw [Step.steps, Step.steps, Step.sequence_single] at simulates
      exact simulates
    · obtain ⟨-, kind⟩ := fits
      cases s <;> first | exact kind.elim | exact other.elim
termination_by structural s

theorem stmts_simulate (sound : S.Sound) (kinds : ∀ m, holds m = true → S.InKind m)
    (ss : List Stmt) (fits : Stmt.listFits u ss)
    (names : namesOfStmts (Stmt.expandList ss) ⊆ N) {c : TypeContext} {temps temps' : Temporaries}
    {out : List Stmt} (agrees : ∀ f f' m, u.Agrees r c (S.view N f f' m))
    (covers : N ⊆ temps.taken) (h : r.stmts c (Stmt.expandList ss) temps = .ok (out, temps')) :
    Step.Simulates S N [] (Step.sequence (Step.watchedSteps S.source call rounds holds ss))
      (Step.sequence (Step.steps S.target S.call rounds out)) (Flow.Alike S) := by
  cases ss with
  | nil =>
    obtain ⟨rfl, -⟩ := Redirecting.ok_pure.1 h
    exact .pure fun _ _ => .next
  | cons s rest =>
    obtain ⟨namesFirst, namesRest⟩ := List.append_subset.1 names
    simp only [Stmt.expandList, stmts, Redirecting.ok_bind, Redirecting.ok_pure] at h
    obtain ⟨first, temps₁, hs, others, _, hr, rfl, rfl⟩ := h
    rw [Step.steps_append]
    exact .append (stmt_simulates sound kinds s fits.1 namesFirst agrees covers hs)
      (stmts_simulate sound kinds rest fits.2 namesRest
        (fun f f' m => (agrees f f' m).declare fits.1.free) (stmt_covers covers hs) hr)
termination_by structural ss

theorem cases_simulate (sound : S.Sound) (kinds : ∀ m, holds m = true → S.InKind m)
    (cases : List Case) (fits : Stmt.casesFit u cases)
    (names : namesOfCases (Stmt.expandCases cases) ⊆ N) {c : TypeContext}
    {temps temps' : Temporaries} {out : List Case}
    (agrees : ∀ f f' m, u.Agrees r c (S.view N f f' m)) (covers : N ⊆ temps.taken)
    (h : r.caseList c (Stmt.expandCases cases) temps = .ok (out, temps')) :
    List.Forall₂ (fun a b => Step.Values r c u N a.values b.values) cases out ∧
      List.Forall₂ (fun x x' => Step.Simulates S N [] x x' (Flow.Alike S))
        (Step.watchedBodies S.source call rounds holds cases)
        (Step.caseBodies S.target S.call rounds out) := by
  cases cases with
  | nil =>
    obtain ⟨rfl, -⟩ := Redirecting.ok_pure.1 h
    exact ⟨.nil, .nil⟩
  | cons first rest =>
    obtain ⟨span, values, body⟩ := first
    obtain ⟨fitsValues, fitsBody, fitsRest⟩ := fits
    obtain ⟨names, namesRest⟩ := List.append_subset.1 names
    obtain ⟨namesValues, namesBody⟩ := List.append_subset.1 names
    simp only [Stmt.expandCases, caseList, Redirecting.ok_bind, Redirecting.ok_lift,
      Redirecting.ok_pure] at h
    obtain ⟨vs, _, ⟨hv, rfl⟩, body', _, hb, others, _, hr, rfl, rfl⟩ := h
    obtain ⟨later, bodies⟩ := cases_simulate sound kinds rest fitsRest namesRest agrees
      (stmts_covers covers hb) hr
    exact ⟨.cons ⟨⟨vs, hv, rfl⟩, fitsValues,
        fun e he => List.Subset.trans (subset_of_mem he) namesValues⟩ later,
      .cons (.inScope (stmts_simulate sound kinds body fitsBody namesBody agrees covers hb)) bodies⟩
termination_by structural cases

end

end RedirectContext

end FieldAccess
