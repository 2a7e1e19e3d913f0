import FieldAccess.Proofs.ClosedStates
import FieldAccess.Proofs.PlaceContents
import FieldAccess.Redirect.Shorthand

namespace FieldAccess

section

variable {op : BinaryOp} {a b v : Value}

theorem BinaryOp.isArithmetic_stepOp (increment : Bool) :
    (stepOp increment).isArithmetic = true := by
  cases increment <;> rfl

theorem BinaryOp.ne_of_isArithmetic (h : op.isArithmetic = true) :
    op ≠ .eq ∧ op ≠ .ne ∧ op ≠ .and ∧ op ≠ .or := by
  refine ⟨?_, ?_, ?_, ?_⟩ <;> rintro rfl <;> cases h

-- Nothing is computed from nothing.
theorem Value.binary_ne_nil (heq : op ≠ .eq) (hne : op ≠ .ne) (h : Value.binary op a b = .ok v) :
    a ≠ .nil := by
  rintro rfl
  unfold Value.binary at h
  split at h <;> contradiction

end

mutual

def Stmt.isArithmetic : Stmt → Bool
  | .assign _ _ (.compound op) _ => op.isArithmetic
  | .block body => body.isArithmetic
  | .ifElse _ init _ body orElse =>
    optionIsArithmetic init && body.isArithmetic && optionIsArithmetic orElse
  | .forLoop _ init _ post body =>
    optionIsArithmetic init && optionIsArithmetic post && body.isArithmetic
  | .range _ _ _ _ _ body => body.isArithmetic
  | .switch _ init _ cases => optionIsArithmetic init && casesAreArithmetic cases
  | _ => true

def Block.isArithmetic : Block → Bool
  | .mk _ statements => areArithmetic statements

def optionIsArithmetic : Option Stmt → Bool
  | none => true
  | some s => s.isArithmetic

def areArithmetic : List Stmt → Bool
  | [] => true
  | s :: rest => s.isArithmetic && areArithmetic rest

def casesAreArithmetic : List Case → Bool
  | [] => true
  | .mk _ _ body :: rest => areArithmetic body && casesAreArithmetic rest

end

-- Changes something, or leaves it as it is.
def applyIf {α : Type} (on : Bool) (g : α → α) (a : α) : α :=
  if on then g a else a

namespace Step

section

variable {p : Program} {call call' : CallHandler} (calls : call.Copies call') {w : Renaming}

include calls

-- What `target op= value` does, `target = target op value` does.
theorem update_expanded {op : BinaryOp} (arithmetic : op.isArithmetic = true) {target value : Expr}
    (free : target.isCallFree = true) (span : Span) {x : Step Value}
    (hx : Copies w x (eval p call' value) Value.Renamed) :
    Copies w (update p call op target x)
      (assign p call' [target] .assign [.binary span op target value]) Flow.Renamed where
  run {w₁ f f' m m' _ _ _} le hf same run := by
    obtain ⟨heq, hne, hand, hor⟩ := BinaryOp.ne_of_isArithmetic arithmetic
    obtain ⟨place, _, m₁, resolving, run⟩ := ok_bind.1 run
    obtain ⟨resolved, rfl⟩ := ok_reading.1 resolving
    obtain ⟨current, _, _, read, run⟩ := ok_bind.1 run
    obtain ⟨v, _, m₂, valued, run⟩ := ok_bind.1 run
    obtain ⟨r, _, _, computing, run⟩ := ok_bind.1 run
    obtain ⟨lifted, rfl⟩ := ok_lift.1 computing
    obtain ⟨computed, rfl⟩ := Exec.ok_ofExcept.1 lifted
    obtain ⟨_, _, _, written, run⟩ := ok_bind.1 run
    obtain ⟨rfl, rfl, rfl⟩ := ok_pure.1 run
    obtain ⟨held, rfl, rfl⟩ := Place.ok_read read (Value.binary_ne_nil heq hne computed)
    obtain ⟨atom, _, result⟩ := Value.binary_atoms computed heq hne
    -- The place, on the other side.
    obtain ⟨w₂, place', m'₁, le₂, resolved', same₂, hp⟩ :=
      (Place.resolve_copies (p := p) calls hf target).run (le_refl _) same resolved
    have grows := (Place.resolve_onlyAllocates p call' f' target free).grows resolved'
    -- The target again, as a value. What this allocates is garbage.
    have again := Place.eval_of_resolve calls hf same free resolved (.refl _) held
    obtain ⟨_, current', m'₂, -, again', -, hc⟩ :=
      (Exec.eval_copies (p := p) calls hf target).run (le_refl _) (same.grow_right grows) again
    obtain rfl := hc.eq_of_isAtom atom
    have same₂ := same₂.grow_right ((Exec.eval_onlyAllocates p call' f' target free).grows again')
    -- The value, the result, and the write.
    obtain ⟨w₃, v', f'₃, m'₃, le₃, valued', hf₃, same₃, hv⟩ :=
      hx.run (le_trans le le₂) (hf.mono le₂) same₂ valued
    obtain ⟨evaluated', rfl⟩ := ok_reading.1 valued'
    obtain ⟨computed', -⟩ := (Value.Renamed.of_isAtom atom).binary same₃.apart hv computed
    obtain ⟨w₄, _, f'₄, m'₄, le₄, written', hf₄, same₄, -⟩ :=
      ((hp.mono le₃).write (.of_isAtom result)).run (le_refl _) hf₃ same₃ written
    refine ⟨w₄, .next, f'₄, m'₄, le_trans le₂ (le_trans le₃ le₄), ?_, hf₄, same₄, .next⟩
    have target' : resolveAll p call' [target] f' m' = .ok ([place'], f') m'₁ :=
      ok_bind.2 ⟨place', f', m'₁, ok_reading.2 ⟨resolved', rfl⟩, rfl⟩
    have value' : evalFor p call' 1 [.binary span op target value] f' m'₁ = .ok ([r], f') m'₃ := by
      refine ok_reading.2 ⟨?_, rfl⟩
      rw [Exec.evalFor, if_neg (Nat.lt_irrefl 1), Exec.eval_binary hand hor]
      refine Exec.ok_bind.2 ⟨r, m'₃, ?_, rfl⟩
      exact Exec.ok_bind.2 ⟨_, m'₂, again', Exec.ok_bind.2 ⟨v', m'₃, evaluated',
        Exec.ok_ofExcept.2 ⟨computed', rfl⟩⟩⟩
    have write' : writeAll [place'] [r] f' m'₃ = .ok ((), f'₄) m'₄ :=
      ok_bind.2 ⟨(), f'₄, m'₄, written', rfl⟩
    exact ok_bind.2 ⟨[place'], f', m'₁, target', ok_bind.2 ⟨[r], f', m'₃, value',
      ok_bind.2 ⟨(), f'₄, m'₄, write', rfl⟩⟩⟩

-- An assignment as it is, or written out where it is a shorthand.
theorem assign_expanded (on : Bool) (span : Span) (targets : List Expr) (op : AssignOp)
    (values : List Expr) (rounds : Nat)
    (fits : on = true → (Stmt.assign span targets op values).isArithmetic = true) :
    Copies w (assign p call targets op values)
      (exec p call' rounds (applyIf on Stmt.expand (.assign span targets op values)))
      Flow.Renamed := by
  by_cases written : on = true ∧ Stmt.areRepeatable targets = true
  · obtain ⟨rfl, free⟩ := written
    cases op with
    | compound op =>
      match targets, values with
      | [target], [value] =>
        have free : target.isCallFree = true := by simpa [Stmt.areRepeatable] using free
        rw [applyIf, if_pos rfl, Stmt.expand, if_pos (by simpa [Stmt.areRepeatable] using free),
          exec]
        refine update_expanded calls (fits rfl) free _ (.reading fun _ hf => ?_)
        rw [Expr.asOperandOf]
        split
        · rw [Exec.eval]
          exact Exec.eval_copies calls hf value
        · exact Exec.eval_copies calls hf value
      | [], _ | [_], [] | [_], _ :: _ :: _ | _ :: _ :: _, _ => exact .fail _
    | _ => exact assign_copies calls targets _ values
  · have same : applyIf on Stmt.expand (.assign span targets op values) =
        .assign span targets op values := by
      cases on with
      | false => rfl
      | true =>
        have notFree : ¬ Stmt.areRepeatable targets = true := fun h => written ⟨rfl, h⟩
        cases op with
        | compound op => rw [applyIf, if_pos rfl, Stmt.expand, if_neg notFree]
        | _ => rfl
    rw [same, exec]
    exact assign_copies calls targets op values

-- Counting up or down, as it is or written out.
theorem step_expanded (on : Bool) (span : Span) (target : Expr) (increment : Bool) (rounds : Nat) :
    Copies w (exec p call rounds (.step span target increment))
      (exec p call' rounds (applyIf on Stmt.expand (.step span target increment)))
      Flow.Renamed := by
  by_cases written : on = true ∧ target.isCallFree = true
  · obtain ⟨rfl, free⟩ := written
    rw [applyIf, if_pos rfl, Stmt.expand, if_pos free, exec, exec, Stmt.steppedValue]
    refine update_expanded calls (BinaryOp.isArithmetic_stepOp increment) free _ ⟨?_⟩
    intro w₁ f f' m m' _ _ _ _ hf same run
    obtain ⟨rfl, rfl, rfl⟩ := ok_pure.1 run
    exact ⟨w₁, .int 1, f', m', le_refl _, rfl, hf, same, .int 1⟩
  · have same : applyIf on Stmt.expand (.step span target increment) =
        .step span target increment := by
      cases on with
      | false => rfl
      | true => rw [applyIf, if_pos rfl, Stmt.expand, if_neg fun h => written ⟨rfl, h⟩]
    rw [same, exec, exec]
    exact update_copies calls _ target (.pure fun _ _ => .int 1)

end

theorem values_expandCases (on : Bool) (cases : List Case) :
    cases.map (·.values) = (applyIf on Stmt.expandCases cases).map (·.values) := by
  cases on with
  | false => rfl
  | true =>
    rw [applyIf, if_pos rfl]
    induction cases with
    | nil => rfl
    | cons c rest ih =>
      obtain ⟨span, values, body⟩ := c
      rw [Stmt.expandCases, List.map_cons, List.map_cons, ih]
      rfl

-- The body of the chosen case.
theorem chosen_copies {w : Renaming} {bodies bodies' : List (Step Flow)}
    (h : List.Forall₂ (Copies w · · Flow.Renamed) bodies bodies') (chosen : Option Nat) :
    Copies w
      (match chosen.bind (bodies[·]?) with
      | none => return .next
      | some body => do
        match ← body with
        | .breaks => return .next
        | flow => return flow)
      (match chosen.bind (bodies'[·]?) with
      | none => return .next
      | some body => do
        match ← body with
        | .breaks => return .next
        | flow => return flow) Flow.Renamed := by
  have body : Option.Rel (Copies w · · Flow.Renamed) (chosen.bind (bodies[·]?))
      (chosen.bind (bodies'[·]?)) := by
    cases chosen with
    | none => exact .none
    | some position => exact forall₂_getElem? h position
  revert body
  generalize chosen.bind (bodies[·]?) = body, chosen.bind (bodies'[·]?) = body'
  intro body
  cases body with
  | none => exact .flow .next
  | some body =>
    refine .bind body fun _ _ _ _ hflow => ?_
    cases hflow with
    | next => exact .flow .next
    | breaks => exact .flow .next
    | continues => exact .flow .continues
    | returns hs => exact .flow (.returns hs)

section

variable {p : Program} {call call' : CallHandler} {rounds : Nat} (on : Bool)

mutual

-- A statement as it is, or with its shorthands written out, does the same.
theorem exec_copies (calls : call.Copies call') : ∀ {w : Renaming} (s : Stmt),
    (on = true → s.isArithmetic = true) →
    Copies w (exec p call rounds s) (exec p call' rounds (applyIf on Stmt.expand s)) Flow.Renamed
  | _, .empty span, _ => by
    rw [show applyIf on Stmt.expand (.empty span) = .empty span by cases on <;> rfl, exec, exec]
    exact .flow .next
  | _, .expr e, _ => by
    rw [show applyIf on Stmt.expand (.expr e) = .expr e by cases on <;> rfl, exec, exec]
    refine .bind (.reading fun _ hf => Exec.evalAll_copies calls hf e) fun _ _ _ _ _ => .flow .next
  | _, .assign span targets op values, fits => by
    rw [exec]
    exact assign_expanded calls on span targets op values rounds fits
  | _, .step span target increment, _ => step_expanded calls on span target increment rounds
  | _, .var span names type values, _ => by
    rw [show applyIf on Stmt.expand (.var span names type values) = .var span names type values by
      cases on <;> rfl, exec, exec]
    exact declare_copies calls names type values
  | _, .block body, fits => by
    rw [show applyIf on Stmt.expand (.block body) = .block (applyIf on Stmt.expandBlock body) by
      cases on <;> rfl, exec, exec]
    exact execBlock_copies calls body fits
  | _, .ifElse span init cond body orElse, fits => by
    have fits (h : on = true) := Bool.and_eq_true_iff.1 (fits h)
    have fitsInit (h : on = true) := Bool.and_eq_true_iff.1 (fits h).1
    rw [show applyIf on Stmt.expand (.ifElse span init cond body orElse) =
        .ifElse span (applyIf on Stmt.expandOption init) cond (applyIf on Stmt.expandBlock body)
          (applyIf on Stmt.expandOption orElse) by cases on <;> rfl, exec, exec]
    refine .inScope (.bind (execOption_copies calls init fun h => (fitsInit h).1) ?_)
    intro _ _ _ _ _
    refine .bind (check_copies calls cond) fun _ holds _ _ e => ?_
    subst e
    cases holds with
    | true => exact execBlock_copies calls body fun h => (fitsInit h).2
    | false => exact execOption_copies calls orElse fun h => (fits h).2
  | _, .forLoop span init cond post body, fits => by
    have fits (h : on = true) := Bool.and_eq_true_iff.1 (fits h)
    have fitsInit (h : on = true) := Bool.and_eq_true_iff.1 (fits h).1
    rw [show applyIf on Stmt.expand (.forLoop span init cond post body) =
        .forLoop span (applyIf on Stmt.expandOption init) cond (applyIf on Stmt.expandOption post)
          (applyIf on Stmt.expandBlock body) by cases on <;> rfl]
    unfold exec
    refine .inScope (.bind (execOption_copies calls init fun h => (fitsInit h).1) ?_)
    intro _ _ _ _ _
    refine .loop ?_ (execBlock_copies calls body fun h => (fits h).2)
      (execOption_copies calls post fun h => (fitsInit h).2) rounds
    cases cond with
    | none => exact .pure fun _ _ => rfl
    | some cond => exact check_copies calls cond
  | _, .range span key value define iterable body, fits => by
    rw [show applyIf on Stmt.expand (.range span key value define iterable body) =
        .range span key value define iterable (applyIf on Stmt.expandBlock body) by
      cases on <;> rfl, exec, exec]
    refine .bind (eval_copies calls iterable) fun _ _ _ _ hv => ?_
    refine .bind (.lift (itemsOf_copies hv)) fun _ _ _ _ items => ?_
    refine .forEach (Q := fun w r r' => r.1.Renamed w r'.1 ∧ r.2.Renamed w r'.2) items
      (fun le h => ⟨h.1.mono le, h.2.mono le⟩)
      fun _ h => .inScope ?_
    refine .bind (bindItem_copies calls define h.1 key) fun _ _ _ le _ => ?_
    refine .bind (bindItem_copies calls define (h.2.mono le) value) fun _ _ _ _ _ => ?_
    exact execBlock_copies calls body fits
  | _, .switch span init tag cases, fits => by
    have fits (h : on = true) := Bool.and_eq_true_iff.1 (fits h)
    rw [show applyIf on Stmt.expand (.switch span init tag cases) =
        .switch span (applyIf on Stmt.expandOption init) tag (applyIf on Stmt.expandCases cases) by
      cases on <;> rfl, exec, exec]
    refine .inScope (.bind (execOption_copies calls init fun h => (fits h).1) fun _ _ _ _ _ => ?_)
    have bodies {w : Renaming} := caseBodies_copies calls (w := w) cases fun h => (fits h).2
    cases tag with
    | none =>
      refine .bind (R := Value.Renamed) (.pure fun _ _ => .bool true) fun _ _ _ _ htag => ?_
      refine .bind (chooseCase_copies calls htag (values_expandCases on cases)) ?_
      rintro _ chosen _ _ rfl
      exact chosen_copies bodies chosen
    | some tag =>
      refine .bind (eval_copies calls tag) fun _ _ _ _ htag => ?_
      refine .bind (chooseCase_copies calls htag (values_expandCases on cases)) ?_
      rintro _ chosen _ _ rfl
      exact chosen_copies bodies chosen
  | _, .ret span values, _ => by
    rw [show applyIf on Stmt.expand (.ret span values) = .ret span values by cases on <;> rfl]
    match values with
    | [e] =>
      rw [exec, exec]
      refine .bind (.reading fun _ hf => Exec.evalAll_copies calls hf e) fun _ _ _ _ hs => ?_
      exact .flow (.returns hs)
    | [] | e :: e' :: rest =>
      rw [exec, exec]
      · refine .bind (.reading fun _ hf => ?_) fun _ _ _ _ hs => .flow (.returns hs)
        exact Exec.all_copies (Exec.actions_copies calls hf _)
      all_goals simp
  | _, .breakLoop span, _ => by
    rw [show applyIf on Stmt.expand (.breakLoop span) = .breakLoop span by cases on <;> rfl, exec,
      exec]
    exact .flow .breaks
  | _, .continueLoop span, _ => by
    rw [show applyIf on Stmt.expand (.continueLoop span) = .continueLoop span by cases on <;> rfl,
      exec, exec]
    exact .flow .continues

theorem execOption_copies (calls : call.Copies call') : ∀ {w : Renaming} (s : Option Stmt),
    (on = true → optionIsArithmetic s = true) → Copies w (execOption p call rounds s)
      (execOption p call' rounds (applyIf on Stmt.expandOption s)) Flow.Renamed
  | _, none, _ => by
    rw [show applyIf on Stmt.expandOption none = none by cases on <;> rfl, execOption, execOption]
    exact .flow .next
  | _, some s, fits => by
    rw [show applyIf on Stmt.expandOption (some s) = some (applyIf on Stmt.expand s) by
      cases on <;> rfl, execOption, execOption]
    exact exec_copies calls s fits

theorem execBlock_copies (calls : call.Copies call') : ∀ {w : Renaming} (b : Block),
    (on = true → b.isArithmetic = true) →
    Copies w (execBlock p call rounds b) (execBlock p call' rounds (applyIf on Stmt.expandBlock b))
      Flow.Renamed
  | _, .mk span statements, fits => by
    rw [show applyIf on Stmt.expandBlock (.mk span statements) =
        .mk span (applyIf on Stmt.expandList statements) by cases on <;> rfl, execBlock, execBlock]
    exact .inScope (.sequence (steps_copies calls statements fits))

theorem steps_copies (calls : call.Copies call') : ∀ {w : Renaming} (ss : List Stmt),
    (on = true → areArithmetic ss = true) →
    List.Forall₂ (Copies w · · Flow.Renamed) (steps p call rounds ss)
      (steps p call' rounds (applyIf on Stmt.expandList ss))
  | _, [], _ => by
    rw [show applyIf on Stmt.expandList [] = [] by cases on <;> rfl, steps, steps]
    exact .nil
  | _, s :: rest, fits => by
    have fits (h : on = true) := Bool.and_eq_true_iff.1 (fits h)
    rw [show applyIf on Stmt.expandList (s :: rest) =
        applyIf on Stmt.expand s :: applyIf on Stmt.expandList rest by cases on <;> rfl, steps,
      steps]
    exact .cons (exec_copies calls s fun h => (fits h).1)
      (steps_copies calls rest fun h => (fits h).2)

theorem caseBodies_copies (calls : call.Copies call') : ∀ {w : Renaming} (cases : List Case),
    (on = true → casesAreArithmetic cases = true) →
    List.Forall₂ (Copies w · · Flow.Renamed) (caseBodies p call rounds cases)
      (caseBodies p call' rounds (applyIf on Stmt.expandCases cases))
  | _, [], _ => by
    rw [show applyIf on Stmt.expandCases [] = [] by cases on <;> rfl, caseBodies, caseBodies]
    exact .nil
  | _, .mk span values body :: rest, fits => by
    have fits (h : on = true) := Bool.and_eq_true_iff.1 (fits h)
    rw [show applyIf on Stmt.expandCases (.mk span values body :: rest) =
        .mk span values (applyIf on Stmt.expandList body) :: applyIf on Stmt.expandCases rest by
      cases on <;> rfl, caseBodies, caseBodies]
    exact .cons (.inScope (.sequence (steps_copies calls body fun h => (fits h).1)))
      (caseBodies_copies calls rest fun h => (fits h).2)

end

end

-- A step of its own, with variables that are the same.
theorem Copies.ran {α β : Type} {w : Renaming} {x : Step α} {x' : Step β}
    {R : Renaming → α → β → Prop} (h : Copies w x x' R) {f f' : Frame} (hf : f.Renamed w f') :
    Exec.Copies w (x.run f) (x'.run f') fun w₁ r r' => R w₁ r.1 r'.1 ∧ r.2.Renamed w₁ r'.2 where
  run {_ _ _ a _} le same run := by
    obtain ⟨a, f₁⟩ := a
    obtain ⟨w₂, b, f'₁, m'₁, le₂, run', hf₁, same₁, rel⟩ := h.run le (hf.mono le) same run
    exact ⟨w₂, (b, f'₁), m'₁, le₂, run', same₁, rel, hf₁⟩

end Step

namespace Program

theorem forall₂_zip {α β : Type} {R : β → β → Prop} (as : List α) {bs bs' : List β}
    (h : List.Forall₂ R bs bs') :
    List.Forall₂ (fun e e' => e.1 = e'.1 ∧ R e.2 e'.2) (as.zip bs) (as.zip bs') := by
  induction as generalizing bs bs' with
  | nil => exact .nil
  | cons a as ih =>
    cases h with
    | nil => exact .nil
    | cons head rest => exact .cons ⟨rfl, head⟩ (ih rest)

theorem parameters_alike {w : Renaming} (g : FuncDecl) {receiver receiver' : Option Value}
    {as as' : List Value} (hr : Option.Rel (Value.Renamed w) receiver receiver')
    (hs : Values.Renamed w as as') : Table.Alike (Value.Renamed w) (parameters g receiver as)
      (parameters g receiver' as') := by
  have receivers : Values.Renamed w receiver.toList receiver'.toList := by
    cases hr with
    | none => exact .nil
    | some h => exact .cons h .nil
  refine Exec.ofList_alike ?_
  rw [List.forall₂_map_left_iff, List.forall₂_map_right_iff]
  refine (List.rel_append (forall₂_zip _ receivers) (forall₂_zip _ hs)).imp ?_
  rintro ⟨param, v⟩ ⟨_, v'⟩ ⟨rfl, h⟩
  exact ⟨rfl, h⟩

-- Calls on machines that hold the same do the same.
theorem invoke_copies (p : Program) (rounds depth : Nat) :
    CallHandler.Copies (p.invoke rounds depth) (p.invoke rounds depth) := by
  induction depth with
  | zero =>
    intro w g receiver receiver' as as' _ _
    refine .of_fails fun m vs m₁ run => ?_
    rw [invoke] at run
    split at run
    · exact Exec.ok_failType.1 run
    · exact Exec.ok_fail.1 run
  | succ depth ih =>
    intro w g receiver receiver' as as' hr hs
    rw [invoke, invoke, hs.length_eq]
    split
    · exact .failType _
    · have body : Step.Copies w
          (Step.sequence (Step.steps p (p.invoke rounds depth) rounds g.body.statements))
          (Step.sequence (Step.steps p (p.invoke rounds depth) rounds g.body.statements))
          Flow.Renamed := .sequence (Step.steps_copies false ih g.body.statements nofun)
      have scope : (Frame.ofTable (parameters g receiver as)).Renamed w
          (.ofTable (parameters g receiver' as')) := .cons (parameters_alike g hr hs) .nil
      refine .bind (body.ran scope) ?_
      rintro w₁ ⟨flow, f⟩ ⟨flow', f'⟩ _ ⟨hflow, -⟩
      cases hflow with
      | returns hs => exact .values hs
      | _ => exact .values .nil

end Program

-- Whenever the one step ends, the other ends in the same way, and all variables, maps, objects and
-- records hold the same after both. What was there before keeps its address.
def Step.EndsLike (x' x : Step Flow) (f : Frame) (m : Machine) : Prop :=
  ∀ flow f₁ m₁, x f m = .ok (flow, f₁) m₁ → ∃ w flow' f'₁ m'₁, m.addresses ≤ w ∧
    x' f m = .ok (flow', f'₁) m'₁ ∧ flow.Renamed w flow' ∧ f₁.Renamed w f'₁ ∧ m₁.Renamed w m'₁

theorem Step.EndsLike.of_copies {x x' : Step Flow} {f : Frame} {m : Machine} (closed : m.Closed)
    (within : f.IsWithin m) (h : Step.Copies m.addresses x x' Flow.Renamed) :
    x'.EndsLike x f m := by
  intro flow f₁ m₁ run
  obtain ⟨w, flow', f'₁, m'₁, le, run', hf, same, hflow⟩ :=
    h.run (le_refl _) within.renamed closed.renamed run
  exact ⟨w, flow', f'₁, m'₁, le, run', hflow, hf, same⟩

namespace Block

variable (p : Program) (rounds depth : Nat) {f f₁ : Frame} {m m₁ : Machine}

-- A block with its shorthands written out does what the block does, in a scope of its own and as
-- the body of a function.
theorem expand_endsLike {b : Block} (arithmetic : b.isArithmetic = true) (closed : m.Closed)
    (within : f.IsWithin m) :
    (Step.execBlock p (p.invoke rounds depth) rounds b.expand).EndsLike
        (Step.execBlock p (p.invoke rounds depth) rounds b) f m ∧
      (Step.sequence (Step.steps p (p.invoke rounds depth) rounds b.expand.statements)).EndsLike
        (Step.sequence (Step.steps p (p.invoke rounds depth) rounds b.statements)) f m := by
  have calls : CallHandler.Copies (p.invoke rounds depth) (p.invoke rounds depth) :=
    p.invoke_copies rounds depth
  refine ⟨.of_copies closed within ?_, .of_copies closed within ?_⟩
  · exact Step.execBlock_copies true calls b fun _ => arithmetic
  · obtain ⟨span, statements⟩ := b
    exact .sequence (Step.steps_copies true calls statements fun _ => arithmetic)

-- The block `counts[[]string{"a"}[0]] += 2; n++`.
def counting : Block :=
  let key := Expr.index .nowhere (.composite .nowhere (.slice (.named "string"))
    [.positional (.literal .nowhere (.string "a"))]) (.literal .nowhere (.int 0))
  .mk .nowhere
    [.assign .nowhere [.index .nowhere (.ident .nowhere "counts") key] (.compound .add)
      [.literal .nowhere (.int 2)],
     .step .nowhere (.ident .nowhere "n") true]

theorem expand_endsLike_counting :
    let m : Machine := { maps := #[⟨[(.str "a", .int 3)]⟩] }
    let f (n : Int64) : Frame := ⟨[⟨[("counts", .map 0), ("n", .int n)]⟩]⟩
    let run (b : Block) := Step.execBlock ⟨[]⟩ (Program.invoke ⟨[]⟩ 0 0) 0 b
    counting.isArithmetic = true ∧ m.Closed ∧ (f 1).IsWithin m ∧
      run counting (f 1) m = .ok (.next, f 2) { m with maps := #[⟨[(.str "a", .int 5)]⟩] } ∧
      (run counting.expand).EndsLike (run counting) (f 1) m := by
  intro m f run
  have closed : m.Closed := ⟨by decide, by decide, by decide, by decide⟩
  have within : (f 1).IsWithin m := by decide
  exact ⟨rfl, closed, within, rfl, (expand_endsLike ⟨[]⟩ 0 0 rfl closed within).1⟩

end Block

end FieldAccess
