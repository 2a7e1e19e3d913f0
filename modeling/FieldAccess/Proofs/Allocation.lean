import FieldAccess.Eval.Expr
import FieldAccess.Proofs.Machines
import FieldAccess.Proofs.Runs

namespace FieldAccess.Exec

-- However it ends, the machine has only grown.
structure OnlyAllocates {α : Type} (x : Exec α) : Prop where
  grows : ∀ {m a m₁}, x m = .ok a m₁ → m.Grows m₁
  growsFailing : ∀ {m fault m₁}, x m = .error fault m₁ → m.Grows m₁

namespace OnlyAllocates

variable {α β : Type}

theorem pure (a : α) : OnlyAllocates (pure a) where
  grows h := (ok_pure.1 h).2 ▸ .refl _
  growsFailing h := (error_pure.1 h).elim

theorem bind {x : Exec α} {f : α → Exec β} (hx : OnlyAllocates x) (hf : ∀ a, OnlyAllocates (f a)) :
    OnlyAllocates (x >>= f) where
  grows h :=
    have ⟨a, _, h₁, h₂⟩ := ok_bind.1 h
    (hx.grows h₁).trans ((hf a).grows h₂)
  growsFailing h := by
    rcases error_bind.1 h with h₁ | ⟨a, _, h₁, h₂⟩
    · exact hx.growsFailing h₁
    · exact (hx.grows h₁).trans ((hf a).growsFailing h₂)

theorem map {x : Exec α} (f : α → β) (hx : OnlyAllocates x) : OnlyAllocates (f <$> x) where
  grows h :=
    have ⟨_, h₁, _⟩ := ok_map.1 h
    hx.grows h₁
  growsFailing h := hx.growsFailing (error_map.1 h)

theorem fail (fault : ExecFault) : OnlyAllocates (fail fault : Exec α) where
  grows h := (ok_fail.1 h).elim
  growsFailing h := (error_fail.1 h).2 ▸ .refl _

theorem orFail (fault : ExecFault) (x : Option α) : OnlyAllocates (orFail fault x) where
  grows h := (ok_orFail.1 h).2 ▸ .refl _
  growsFailing h := (error_orFail.1 h).2.2 ▸ .refl _

theorem ofExcept (x : Except ExecFault α) : OnlyAllocates (ofExcept x) where
  grows h := (ok_ofExcept.1 h).2 ▸ .refl _
  growsFailing h := (error_ofExcept.1 h).2 ▸ .refl _

theorem get : OnlyAllocates (get : Exec Machine) where
  grows h := (ok_get.1 h).2 ▸ .refl _
  growsFailing h := (error_get.1 h).elim

theorem allocMap (t : Table MapKey) : OnlyAllocates (ofState (Machine.allocMap t)) where
  grows h := (Machine.Grows.allocMap (ok_ofState.1 h)).2.2
  growsFailing h := (error_ofState.1 h).elim

theorem allocObject (o : Object) : OnlyAllocates (ofState (Machine.allocObject o)) where
  grows h := Machine.Grows.allocObject (ok_ofState.1 h)
  growsFailing h := (error_ofState.1 h).elim

theorem ite {x y : Exec α} {b : Bool} (hx : OnlyAllocates x) (hy : OnlyAllocates y) :
    OnlyAllocates (if b = true then x else y) := by
  cases b
  · exact hy
  · exact hx

theorem truthValue {x : Exec Value} (hx : OnlyAllocates x) :
    OnlyAllocates (do return Value.bool (← truth (← x))) :=
  bind hx fun _ => bind (orFail ..) fun _ => pure _

theorem all {xs : List (Exec Value)} (h : ∀ x ∈ xs, OnlyAllocates x) :
    OnlyAllocates (all xs) := by
  induction xs with
  | nil => exact pure _
  | cons x rest ih =>
    rw [Exec.all]
    refine bind (h x (by simp)) fun v => bind (ih fun y hy => h y (by simp [hy])) fun _ => pure _

theorem item (container index : Value) : OnlyAllocates (item container index) := by
  unfold Exec.item
  split
  · exact bind (orFail ..) fun _ => orFail ..
  · exact bind (orFail ..) fun _ => bind get fun _ => pure _
  · exact pure _
  · exact fail _

theorem itemAndPresence (container index : Value) :
    OnlyAllocates (itemAndPresence container index) := by
  unfold Exec.itemAndPresence
  split
  · exact bind (orFail ..) fun _ => bind get fun _ => pure _
  · exact bind (item ..) fun _ => pure _

theorem recordProperty (address : Nat) (name : String) :
    OnlyAllocates (recordProperty address name) := by
  unfold Exec.recordProperty
  split
  · exact bind get fun _ => pure _
  · exact fail _

theorem select (base : Value) (member : String) : OnlyAllocates (select base member) := by
  unfold Exec.select
  split
  · refine bind get fun m => ?_
    split
    · exact pure _
    · exact recordProperty ..
    · exact fail _
  · exact recordProperty ..
  · exact fail _
  · exact fail _

theorem sliceLiteral {entries : List LiteralEntry} (h : ∀ e ∈ entries, OnlyAllocates e.value) :
    OnlyAllocates (sliceLiteral entries) := by
  refine bind (all fun x hx => ?_) fun _ => pure _
  obtain ⟨e, he, hv⟩ := List.mem_map.1 hx
  exact hv ▸ h e he

theorem mapEntries {entries : List LiteralEntry}
    (h : ∀ e ∈ entries, OnlyAllocates e.key ∧ OnlyAllocates e.value) (t : Table MapKey) :
    OnlyAllocates (mapEntries t entries) := by
  induction entries generalizing t with
  | nil => exact pure _
  | cons e rest ih =>
    obtain ⟨hk, hv⟩ := h e (by simp)
    refine bind (orFail ..) fun _ => bind hk fun _ => bind (orFail ..) fun _ => bind hv fun _ => ?_
    exact ih (fun e he => h e (by simp [he])) _

theorem structFields {entries : List LiteralEntry} (h : ∀ e ∈ entries, OnlyAllocates e.value)
    (t : Table String) : OnlyAllocates (structFields t entries) := by
  induction entries generalizing t with
  | nil => exact pure _
  | cons e rest ih =>
    refine bind (orFail ..) fun _ => bind (h e (by simp)) fun _ => ?_
    exact ih (fun e he => h e (by simp [he])) _

end OnlyAllocates

variable (p : Program) (call : CallHandler) (f : Frame)

mutual

theorem eval_onlyAllocates : ∀ e : Expr, e.isCallFree = true → OnlyAllocates (eval p call f e)
  | .ident _ name, _ => by
    rw [eval]
    exact .bind (.bind .get fun _ => .pure _) fun _ => .orFail ..
  | .literal _ _, _ => by
    rw [eval]
    exact .pure _
  | .select _ base member, h => by
    rw [eval]
    exact .bind (eval_onlyAllocates base h) fun _ => .select ..
  | .call _ _ _ _, h => by cases h
  | .index _ base i, h => by
    obtain ⟨hb, hi⟩ := Bool.and_eq_true_iff.1 h
    rw [eval]
    refine .bind (eval_onlyAllocates base hb) fun _ => ?_
    exact .bind (eval_onlyAllocates i hi) fun _ => .item ..
  | .binary _ op left right, h => by
    obtain ⟨hl, hr⟩ := Bool.and_eq_true_iff.1 h
    have left := eval_onlyAllocates left hl
    have right := eval_onlyAllocates right hr
    by_cases hand : op = .and
    · subst hand
      rw [eval]
      exact .bind left fun _ => .bind (.orFail ..) fun _ => .ite (.truthValue right) (.pure _)
    · by_cases hor : op = .or
      · subst hor
        rw [eval]
        exact .bind left fun _ => .bind (.orFail ..) fun _ => .ite (.pure _) (.truthValue right)
      · rw [eval]
        · exact .bind left fun _ => .bind right fun _ => .ofExcept _
        · exact hand
        · exact hor
  | .unary _ op operand, h => by
    rw [eval]
    exact .bind (eval_onlyAllocates operand h) fun _ => .ofExcept _
  | .paren _ inner, h => by
    rw [eval]
    exact eval_onlyAllocates inner h
  | .composite _ type elements, h => by
    have entries := entries_onlyAllocates elements h
    unfold eval
    split
    · exact .sliceLiteral fun e he => (entries e he).2
    · exact .bind (.mapEntries entries _) fun _ => .allocMap _
    · exact .bind (.structFields (fun e he => (entries e he).2) _) fun _ => .allocObject _
  | .typeOperand _ _, _ => by
    rw [eval]
    exact .fail _

theorem entries_onlyAllocates : ∀ elements : List Element, Expr.areCallFree elements = true →
    ∀ e ∈ entries p call f elements, OnlyAllocates e.key ∧ OnlyAllocates e.value
  | [], _ => by simp [entries]
  | .positional value :: rest, h => by
    obtain ⟨hv, hr⟩ := Bool.and_eq_true_iff.1 h
    have head := eval_onlyAllocates value hv
    have tail := entries_onlyAllocates rest hr
    rw [entries]
    intro e he
    cases he with
    | head => exact ⟨.fail _, head⟩
    | tail _ he => exact tail e he
  | .keyed key value :: rest, h => by
    obtain ⟨h, hr⟩ := Bool.and_eq_true_iff.1 h
    obtain ⟨hk, hv⟩ := Bool.and_eq_true_iff.1 h
    have headKey := eval_onlyAllocates key hk
    have headValue := eval_onlyAllocates value hv
    have tail := entries_onlyAllocates rest hr
    rw [entries]
    intro e he
    cases he with
    | head => exact ⟨headKey, headValue⟩
    | tail _ he => exact tail e he

end

theorem actions_eq (es : List Expr) : actions p call f es = es.map (eval p call f) := by
  induction es with
  | nil => rfl
  | cons e rest ih => rw [actions, ih, List.map_cons]

theorem evalAll_onlyAllocates {e : Expr} (h : e.isCallFree = true) :
    OnlyAllocates (evalAll p call f e) := by
  unfold evalAll
  split
  · cases h
  · obtain ⟨hb, hi⟩ := Bool.and_eq_true_iff.1 h
    exact .bind (eval_onlyAllocates p call f _ hb) fun _ =>
      .bind (eval_onlyAllocates p call f _ hi) fun _ => .itemAndPresence ..
  · exact .bind (eval_onlyAllocates p call f e h) fun _ => .pure _

theorem all_onlyAllocates {es : List Expr} (h : ∀ e ∈ es, e.isCallFree = true) :
    OnlyAllocates (all (actions p call f es)) := by
  refine .all fun x hx => ?_
  rw [actions_eq] at hx
  obtain ⟨e, he, hx⟩ := List.mem_map.1 hx
  exact hx ▸ eval_onlyAllocates p call f e (h e he)

theorem evalFor_onlyAllocates (count : Nat) {es : List Expr} (h : ∀ e ∈ es, e.isCallFree = true) :
    OnlyAllocates (evalFor p call f count es) := by
  unfold evalFor
  split
  · split
    · refine .bind (evalAll_onlyAllocates p call f (h _ (by simp))) fun vs => ?_
      split
      · exact .pure _
      · exact .fail _
    · exact .bind (eval_onlyAllocates p call f _ (h _ (by simp))) fun _ => .pure _
  · exact all_onlyAllocates p call f h

end FieldAccess.Exec
