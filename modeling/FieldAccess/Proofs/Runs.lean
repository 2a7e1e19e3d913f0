import FieldAccess.Eval.Stmt

namespace FieldAccess

namespace Exec

variable {α β : Type} {m m₂ : Machine} {a b : α}

theorem ok_bind {x : Exec α} {f : α → Exec β} {b : β} :
    (x >>= f) m = .ok b m₂ ↔ ∃ a m₁, x m = .ok a m₁ ∧ f a m₁ = .ok b m₂ := by
  cases h : x m with
  | error => simp [bind, EStateM.bind, h]
  | ok =>
    simp only [bind, EStateM.bind, h, EStateM.Result.ok.injEq]
    grind

theorem bind_of_ok {x : Exec α} {m₁ : Machine} (h : x m = .ok a m₁) (k : α → Exec β) :
    (x >>= k) m = k a m₁ := by
  simp [bind, EStateM.bind, h]

theorem bind_of_error {x : Exec α} {fault : ExecFault} {m₁ : Machine} (h : x m = .error fault m₁)
    (k : α → Exec β) : (x >>= k) m = .error fault m₁ := by
  simp [bind, EStateM.bind, h]

theorem ok_pure : (pure a : Exec α) m = .ok b m₂ ↔ a = b ∧ m = m₂ := by
  simp [pure, EStateM.pure]

theorem ok_map {x : Exec α} {f : α → β} {b : β} :
    (f <$> x) m = .ok b m₂ ↔ ∃ a, x m = .ok a m₂ ∧ f a = b := by
  cases h : x m with
  | error => simp [Functor.map, EStateM.map, h]
  | ok =>
    simp only [Functor.map, EStateM.map, h, EStateM.Result.ok.injEq]
    grind

theorem ok_get {s : Machine} : (get : Exec Machine) m = .ok s m₂ ↔ m = s ∧ m = m₂ := by
  change EStateM.Result.ok m m = .ok s m₂ ↔ _
  rw [EStateM.Result.ok.injEq]

theorem get_bind (k : Machine → Exec α) : (get >>= k) m = k m m := rfl

theorem ok_modify {g : Machine → Machine} {u : Unit} :
    (modify g : Exec Unit) m = .ok u m₂ ↔ g m = m₂ := by
  change EStateM.Result.ok () (g m) = .ok u m₂ ↔ _
  simp

theorem ok_throw {fault : ExecFault} : (throw fault : Exec α) m = .ok a m₂ ↔ False := by
  change EStateM.Result.error fault m = .ok a m₂ ↔ _
  simp

theorem ok_fail {fault : ExecFault} : (fail fault : Exec α) m = .ok a m₂ ↔ False :=
  ok_throw

theorem ok_failType {fault : TypeFault} : (failType fault : Exec α) m = .ok a m₂ ↔ False :=
  ok_fail

theorem ok_orFail {fault : ExecFault} {x : Option α} :
    orFail fault x m = .ok a m₂ ↔ x = some a ∧ m = m₂ := by
  cases x with
  | none => simp [orFail, ok_throw]
  | some b => simp [orFail, ok_pure]

theorem ok_ofExcept {x : Except ExecFault α} :
    ofExcept x m = .ok a m₂ ↔ x = .ok a ∧ m = m₂ := by
  cases x with
  | error fault => simp [ofExcept, ok_throw]
  | ok b => simp [ofExcept, ok_pure]

theorem ok_ofState {x : StateM Machine α} : ofState x m = .ok a m₂ ↔ x m = (a, m₂) := by
  change EStateM.Result.ok (x m).1 (x m).2 = .ok a m₂ ↔ _
  rw [EStateM.Result.ok.injEq, Prod.ext_iff]

section

variable {fault fault' : ExecFault}

-- The first part stops, or it succeeds and the second stops.
theorem error_bind {x : Exec α} {f : α → Exec β} :
    (x >>= f) m = .error fault m₂ ↔
      x m = .error fault m₂ ∨ ∃ a m₁, x m = .ok a m₁ ∧ f a m₁ = .error fault m₂ := by
  cases h : x m with
  | error => simp [bind, EStateM.bind, h]
  | ok =>
    simp only [bind, EStateM.bind, h, reduceCtorEq, false_or, EStateM.Result.ok.injEq]
    grind

theorem error_pure : (pure a : Exec α) m = .error fault m₂ ↔ False := by
  simp [pure, EStateM.pure]

theorem error_map {x : Exec α} {f : α → β} :
    (f <$> x) m = .error fault m₂ ↔ x m = .error fault m₂ := by
  cases h : x m <;> simp [Functor.map, EStateM.map, h]

theorem error_get : (get : Exec Machine) m = .error fault m₂ ↔ False := by
  change EStateM.Result.ok m m = .error fault m₂ ↔ _
  simp

theorem error_fail : (fail fault : Exec α) m = .error fault' m₂ ↔ fault = fault' ∧ m = m₂ := by
  change EStateM.Result.error fault m = .error fault' m₂ ↔ _
  simp

theorem error_orFail {x : Option α} :
    orFail fault x m = .error fault' m₂ ↔ x = none ∧ fault = fault' ∧ m = m₂ := by
  cases x with
  | none =>
    change fail fault m = .error fault' m₂ ↔ _
    simp [error_fail]
  | some b => simp [orFail, error_pure]

theorem error_ofExcept {x : Except ExecFault α} :
    ofExcept x m = .error fault m₂ ↔ x = .error fault ∧ m = m₂ := by
  cases x with
  | error fault' =>
    change fail fault' m = .error fault m₂ ↔ _
    simp [error_fail]
  | ok b => simp [ofExcept, error_pure]

theorem error_ofState {x : StateM Machine α} : ofState x m = .error fault m₂ ↔ False := by
  change EStateM.Result.ok (x m).1 (x m).2 = .error fault m₂ ↔ _
  simp

end

end Exec

namespace Step

variable {α β : Type} {f f₂ : Frame} {m m₂ : Machine} {a b : α}

theorem ok_bind {x : Step α} {k : α → Step β} {b : β} :
    (x >>= k) f m = .ok (b, f₂) m₂ ↔
      ∃ a f₁ m₁, x f m = .ok (a, f₁) m₁ ∧ k a f₁ m₁ = .ok (b, f₂) m₂ := by
  cases h : x f m with
  | error => simp [bind, StateT.bind, EStateM.bind, h]
  | ok p =>
    obtain ⟨a, f₁⟩ := p
    simp only [bind, StateT.bind, EStateM.bind, h, EStateM.Result.ok.injEq, Prod.mk.injEq]
    grind

theorem ok_pure : (pure a : Step α) f m = .ok (b, f₂) m₂ ↔ a = b ∧ f = f₂ ∧ m = m₂ := by
  change EStateM.Result.ok (a, f) m = .ok (b, f₂) m₂ ↔ _
  simp [and_assoc]

theorem ok_lift {x : Exec α} :
    (liftM x : Step α) f m = .ok (a, f₂) m₂ ↔ x m = .ok a m₂ ∧ f = f₂ := by
  change (x >>= fun a => pure (a, f)) m = .ok (a, f₂) m₂ ↔ _
  simp only [Exec.ok_bind, Exec.ok_pure]
  grind

theorem ok_get {s : Frame} :
    (get : Step Frame) f m = .ok (s, f₂) m₂ ↔ f = s ∧ f = f₂ ∧ m = m₂ := by
  change EStateM.Result.ok (f, f) m = .ok (s, f₂) m₂ ↔ _
  simp [and_assoc]

theorem get_bind (k : Frame → Step α) : (get >>= k) f m = k f f m := rfl

theorem ok_modify {g : Frame → Frame} {u : Unit} :
    (modify g : Step Unit) f m = .ok (u, f₂) m₂ ↔ g f = f₂ ∧ m = m₂ := by
  change EStateM.Result.ok ((), g f) m = .ok (u, f₂) m₂ ↔ _
  simp

theorem ok_getThe {s : Machine} :
    (getThe Machine : Step Machine) f m = .ok (s, f₂) m₂ ↔ m = s ∧ f = f₂ ∧ m = m₂ := by
  change EStateM.Result.ok (m, f) m = .ok (s, f₂) m₂ ↔ _
  simp [and_assoc]

theorem ok_modifyThe {g : Machine → Machine} {u : Unit} :
    (modifyThe Machine g : Step Unit) f m = .ok (u, f₂) m₂ ↔ f = f₂ ∧ g m = m₂ := by
  change EStateM.Result.ok ((), f) (g m) = .ok (u, f₂) m₂ ↔ _
  simp

theorem ok_reading {x : Frame → Exec α} :
    reading x f m = .ok (a, f₂) m₂ ↔ x f m = .ok a m₂ ∧ f = f₂ := by
  simp only [reading, ok_bind, ok_get, ok_lift]
  grind

theorem ok_inScope {x : Step α} :
    inScope x f m = .ok (a, f₂) m₂ ↔
      ∃ f₁, x f.push m = .ok (a, f₁) m₂ ∧ f₁.pop = f₂ := by
  simp only [inScope, ok_bind, ok_modify, ok_pure]
  grind

end Step

end FieldAccess
