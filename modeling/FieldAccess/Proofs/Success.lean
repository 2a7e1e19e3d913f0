import FieldAccess.Eval.Place
import FieldAccess.Redirect.Plan
import Mathlib.Data.List.Forall2

namespace FieldAccess

section

variable {α β σ : Type}

theorem state_bind (x : StateM σ α) (f : α → StateM σ β) (s : σ) :
    (x >>= f) s = f (x s).1 (x s).2 := rfl

theorem state_map (f : α → β) (x : StateM σ α) (s : σ) :
    (f <$> x) s = (f (x s).1, (x s).2) := rfl

theorem state_pure (a : α) (s : σ) : (pure a : StateM σ α) s = (a, s) := rfl

end

section

variable {ε α β : Type}

theorem ok_bind {x : Except ε α} {f : α → Except ε β} {b : β} :
    (x >>= f) = .ok b ↔ ∃ a, x = .ok a ∧ f a = .ok b := by
  cases x <;> simp [bind, Except.bind]

theorem ok_pure {a b : α} : (pure a : Except ε α) = .ok b ↔ a = b := by
  simp [pure, Except.pure]

theorem exists_ok {x : Except ε α} (h : x.isOk = true) : ∃ a, x = .ok a := by
  cases x with
  | error e => cases h
  | ok a => exact ⟨a, rfl⟩

theorem exists_ok_of {x : Except ε α} {P : α → Bool} (h : x.toOption.any P = true) :
    ∃ a, x = .ok a ∧ P a = true := by
  cases x with
  | error e => cases h
  | ok a => exact ⟨a, rfl, h⟩

theorem ok_throw {e : ε} {a : α} : (throw e : Except ε α) = .ok a ↔ False := by
  simp [throw, throwThe, MonadExceptOf.throw]

end

namespace Redirecting

variable {α β : Type} {x : Redirecting α} {f : α → Redirecting β} {s s' : Temporaries}

theorem ok_bind {b : β} :
    (x >>= f) s = .ok (b, s') ↔ ∃ a s₁, x s = .ok (a, s₁) ∧ f a s₁ = .ok (b, s') := by
  cases h : x s with
  | error e => simp [bind, StateT.bind, Except.bind, h]
  | ok p =>
    obtain ⟨a, s₁⟩ := p
    simp only [bind, StateT.bind, Except.bind, h, Except.ok.injEq, Prod.mk.injEq]
    grind

theorem ok_pure {a b : α} : (pure a : Redirecting α) s = .ok (b, s') ↔ a = b ∧ s = s' := by
  change Except.ok (a, s) = .ok (b, s') ↔ _
  simp

theorem ok_lift {x : Except RedirectError α} {a : α} :
    (liftM x : Redirecting α) s = .ok (a, s') ↔ x = .ok a ∧ s = s' := by
  change (x >>= fun a => pure (a, s)) = .ok (a, s') ↔ _
  cases x <;> simp [bind, Except.bind, pure, Except.pure]

theorem ok_modifyGet {g : Temporaries → α × Temporaries} {a : α} :
    (modifyGet g : Redirecting α) s = .ok (a, s') ↔ g s = (a, s') := by
  change Except.ok (g s) = .ok (a, s') ↔ _
  simp

theorem bind_lift {x : Except RedirectError α} {a : α} (h : x = .ok a) (f : α → Redirecting β) :
    (liftM x >>= f) s = f a s := by
  rw [h]
  rfl

theorem bind_modifyGet (g : Temporaries → α × Temporaries) (f : α → Redirecting β) :
    (modifyGet g >>= f) s = f (g s).1 (g s).2 := rfl

theorem bind_of_ok {a : α} (h : x s = .ok (a, s')) (f : α → Redirecting β) :
    (x >>= f) s = f a s' := by
  simp [bind, StateT.bind, Except.bind, h]

theorem error_lift {x : Except RedirectError α} {e : RedirectError} :
    (liftM x : Redirecting α) s = .error e ↔ x = .error e := by
  change (x >>= fun a => pure (a, s)) = .error e ↔ _
  cases x <;> simp [bind, Except.bind, pure, Except.pure]

theorem bind_of_error {e : RedirectError} (h : x s = .error e) (f : α → Redirecting β) :
    (x >>= f) s = .error e := by
  simp [bind, StateT.bind, Except.bind, h]

end Redirecting

theorem forall₂_getElem? {α β : Type} {R : α → β → Prop} {as : List α} {bs : List β}
    (h : List.Forall₂ R as bs) (n : Nat) : Option.Rel R as[n]? bs[n]? := by
  induction h generalizing n with
  | nil => exact .none
  | cons head _ ih =>
    cases n with
    | zero => exact .some head
    | succ n => simpa using ih n

theorem exists_of_forall₂ {α β : Type} {R : α → β → Prop} {as : List α} {bs : List β} {a : α}
    (h : List.Forall₂ R as bs) (ha : a ∈ as) : ∃ b ∈ bs, R a b := by
  induction h with
  | nil => cases ha
  | cons hab _ ih => grind

end FieldAccess
