import FieldAccess.Proofs.Success
import Mathlib.Data.List.Forall2

namespace FieldAccess

-- A walk over a list that only threads a state yields one result per element.
theorem forall₂_mapM {α β σ : Type} (f : α → StateM σ β) (l : List α) (s : σ) :
    List.Forall₂ (fun a b => ∃ s, (f a s).1 = b) l (l.mapM f s).1 := by
  induction l generalizing s with
  | nil => exact .nil
  | cons a l ih =>
    rw [List.mapM_cons]
    exact .cons ⟨s, rfl⟩ (ih _)

theorem exists_mem_mapM {α β σ : Type} (f : α → StateM σ β) {l : List α} (s : σ) {a : α}
    (h : a ∈ l) : ∃ s', (f a s').1 ∈ (l.mapM f s).1 := by
  induction l generalizing s with
  | nil => simp at h
  | cons b l ih =>
    rw [List.mapM_cons]
    rcases List.mem_cons.1 h with rfl | h
    · exact ⟨s, List.mem_cons_self ..⟩
    · obtain ⟨s', hs⟩ := ih (f b s).2 h
      exact ⟨s', List.mem_cons_of_mem _ hs⟩

theorem mem_mapM {α β σ : Type} {f : α → StateM σ β} {l : List α} {s : σ} {b : β}
    (h : b ∈ (l.mapM f s).1) : ∃ a ∈ l, ∃ s', (f a s').1 = b := by
  induction l generalizing s with
  | nil => cases h
  | cons a l ih =>
    rw [List.mapM_cons] at h
    rcases List.mem_cons.1 h with rfl | h
    · exact ⟨a, by simp, s, rfl⟩
    · obtain ⟨a', ha, s', hs⟩ := ih h
      exact ⟨a', by simp [ha], s', hs⟩

namespace Captured

@[simp]
theorem append_names (a b : Captured) : (a ++ b).names = a.names ++ b.names := rfl

@[simp]
theorem append_values (a b : Captured) : (a ++ b).values = a.values ++ b.values := rfl

theorem foldl_append_names {α : Type} (f : α → Captured) (l : List α) (c : Captured) :
    (l.foldl (fun c a => c ++ f a) c).names = c.names ++ l.flatMap (f · |>.names) := by
  induction l generalizing c with
  | nil => simp
  | cons a l ih => simp [ih]

theorem foldl_append_values {α : Type} (f : α → Captured) (l : List α) (c : Captured) :
    (l.foldl (fun c a => c ++ f a) c).values = c.values ++ l.flatMap (f · |>.values) := by
  induction l generalizing c with
  | nil => simp
  | cons a l ih => simp [ih]

theorem foldl_append {α : Type} (f : α → Captured) (l : List α) :
    l.foldl (fun c a => c ++ f a) {} = ⟨l.flatMap (f · |>.names), l.flatMap (f · |>.values)⟩ := by
  change (Captured.mk _ _ : Captured) = ⟨_, _⟩
  rw [foldl_append_names, foldl_append_values]
  rfl

end Captured

section

variable (settings : Settings) (span : Span) (targets : List Target) (values : List TypedExpr)
  (s : Temporaries)

-- Whether targets and values stand in pairs and nothing in the assignment calls anything, fields
-- apart.
def planCallFree : Bool :=
  targets.length = values.length && values.all (·.expr.isCallFree) &&
    targets.all fun | .plain place => place.isCallFree | _ => true

def planWritten : List String :=
  targets.filterMap fun | .plain place => place.ident? | _ => none

def planOperands : List (Target × Captured) × Temporaries :=
  targets.mapM (captureTarget span (planWritten targets)
    (targets.any (·.isPlain) && !planCallFree targets values)) s

def planSources : List (Option TypedExpr) :=
  if targets.length = values.length then values.map some else targets.map fun _ => none

def planParts : List TargetPlan × Temporaries :=
  let operands := planOperands span targets values s
  let plans : StateM Temporaries (List TargetPlan) :=
    ((operands.1.map (·.1)).zip (planSources targets values)).mapM fun (target, value) =>
      planTarget settings span (targets.any (·.isPlain) && planCallFree targets values) target value
  plans operands.2

def planBindings (paired : Prop) [Decidable paired] (first second : Captured)
    (values : List Expr) : List Stmt :=
  (if paired then [first ++ second] else [first, ⟨second.names, values⟩] : List Captured).filterMap
    (·.statement? span)

theorem planTargets_eq :
    planTargets settings span targets values s =
      let operands := (planOperands span targets values s).1
      let parts := planParts settings span targets values s
      ({ bindings :=
           planBindings span (targets.length = values.length)
             (operands.foldl (· ++ ·.2) {}) (parts.1.foldl (· ++ ·.captured) {})
             (values.map (·.expr))
         plain := plainStatement? span (parts.1.filterMap (·.plain))
         readsBindings := targets.any (·.isPlain) && !planCallFree targets values
         mutators := parts.1.filterMap (·.mutator) }, parts.2) := rfl

variable {targets values}

theorem length_planOperands :
    (planOperands span targets values s).1.length = targets.length :=
  (forall₂_mapM _ _ _).length_eq.symm

theorem length_planSources : (planSources targets values).length = targets.length := by
  simp only [planSources]
  split <;> simp_all

end

section

variable {settings : Settings} {span : Span} {s : Temporaries}

theorem planTarget_field (inPlace : Bool) (receiver : Expr) (info : FieldInfo)
    (v : Option TypedExpr) :
    planTarget settings span inPlace (.field receiver info) v s =
      let source := captureValue span info.name v s
      ({ captured := source.1.2
         mutator := some (info.write settings receiver source.1.1 span) }, source.2) := by
  cases inPlace <;> cases v <;> rfl

theorem planTarget_plain (inPlace : Bool) (place : Expr) (v : Option TypedExpr) :
    planTarget settings span inPlace (.plain place) v s =
      match if inPlace then v else none with
      | some value => ({ plain := some (place, value.expr) }, s)
      | none =>
        let source := captureValue span place.nameHint v s
        ({ captured := source.1.2, plain := some (place, source.1.1.expr) }, source.2) := by
  cases inPlace <;> cases v <;> rfl

theorem planTarget_blank (inPlace : Bool) (v : Option TypedExpr) :
    planTarget settings span inPlace .blank v s =
      match if inPlace then v else none with
      | some value => ({ plain := some (.ident span "_", value.expr) }, s)
      | none => ({ captured := discard v }, s) := by
  cases inPlace <;> cases v <;> rfl

end

end FieldAccess
