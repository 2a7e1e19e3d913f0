import FieldAccess.Proofs.CodeRuns
import FieldAccess.Proofs.Runs
import FieldAccess.Proofs.States
import FieldAccess.Redirect.Header

namespace FieldAccess

namespace Step

variable {α : Type}

-- A step that never sends the loop around it to the next round.
structure Stays (x : Step Flow) : Prop where
  not_continues : ∀ {f m f₂ m₂}, x f m ≠ .ok (.continues, f₂) m₂

namespace Stays

theorem pure {flow : Flow} (h : flow ≠ .continues) : Stays (pure flow) where
  not_continues run := h (ok_pure.1 run).1

theorem bind (x : Step α) {k : α → Step Flow} (h : ∀ a, Stays (k a)) : Stays (x >>= k) where
  not_continues run := by
    obtain ⟨a, _, _, _, run⟩ := ok_bind.1 run
    exact (h a).not_continues run

theorem fail (fault : ExecFault) : Stays (Exec.fail fault) where
  not_continues run := Exec.ok_fail.1 (ok_lift.1 run).1

theorem inScope {x : Step Flow} (h : Stays x) : Stays (inScope x) where
  not_continues run := by
    obtain ⟨_, run, _⟩ := ok_inScope.1 run
    exact h.not_continues run

theorem sequence {xs : List (Step Flow)} (h : ∀ x ∈ xs, Stays x) : Stays (sequence xs) := by
  induction xs with
  | nil => exact .pure nofun
  | cons x rest ih =>
    obtain ⟨first, later⟩ := List.forall_mem_cons.1 h
    refine ⟨fun run => ?_⟩
    obtain ⟨flow, _, _, head, run⟩ := ok_bind.1 run
    cases flow with
    | next => exact (ih later).not_continues run
    | continues => exact first.not_continues head
    | breaks => cases (ok_pure.1 run).1
    | returns => cases (ok_pure.1 run).1

-- A switch keeps a `break` to itself and passes on all else.
theorem switched {x : Step Flow} (h : Stays x) :
    Stays (do
      match ← x with
      | .breaks => return .next
      | flow => return flow) where
  not_continues run := by
    obtain ⟨flow, _, _, ends, run⟩ := ok_bind.1 run
    cases flow with
    | continues => exact h.not_continues ends
    | breaks => cases (ok_pure.1 run).1
    | next => cases (ok_pure.1 run).1
    | returns => cases (ok_pure.1 run).1

-- Loops keep the `continue` of their bodies to themselves.
theorem loop (cond : Step Bool) (body post : Step Flow) (rounds : Nat) :
    Stays (loop cond body post rounds) := by
  induction rounds with
  | zero => exact .fail .roundLimit
  | succ rounds ih =>
    refine .bind cond fun go => ?_
    cases go with
    | false => exact .pure nofun
    | true =>
      refine .bind body fun flow => ?_
      cases flow with
      | breaks => exact .pure nofun
      | returns => exact .pure nofun
      | next => exact .bind post fun _ => ih
      | continues => exact .bind post fun _ => ih

theorem forEach (round : α → Step Flow) (as : List α) : Stays (forEach round as) := by
  induction as with
  | nil => exact .pure nofun
  | cons a rest ih =>
    refine .bind (round a) fun flow => ?_
    cases flow with
    | breaks => exact .pure nofun
    | returns => exact .pure nofun
    | next => exact ih
    | continues => exact ih

section

variable (p : Program) (call : CallHandler)

theorem update (op : BinaryOp) (target : Expr) (value : Step Value) :
    Stays (update p call op target value) :=
  .bind _ fun _ => .bind _ fun _ => .bind _ fun _ => .bind _ fun _ => .bind _ fun _ => .pure nofun

theorem assign (targets : List Expr) (op : AssignOp) (values : List Expr) :
    Stays (assign p call targets op values) := by
  cases op with
  | define => exact .bind _ fun _ => .bind _ fun _ => .pure nofun
  | assign => exact .bind _ fun _ => .bind _ fun _ => .bind _ fun _ => .pure nofun
  | compound op =>
    rcases targets with _ | ⟨target, _ | _⟩ <;> rcases values with _ | ⟨value, _ | _⟩
    case cons.nil.cons.nil => exact .update p call op target _
    all_goals exact .fail _

theorem declare (names : List String) (type : Option TypeExpr) (values : List Expr) :
    Stays (declare p call names type values) := by
  unfold Step.declare
  split
  · exact .bind _ fun _ => .bind _ fun _ => .pure nofun
  · exact .bind _ fun _ => .bind _ fun _ => .pure nofun

end

end Stays

section

variable (p : Program) (call : CallHandler) (rounds : Nat)

mutual

theorem exec_stays (s : Stmt) (stays : s.continues = false) : Stays (exec p call rounds s) := by
  cases s with
  | empty => exact .pure nofun
  | expr => exact .bind _ fun _ => .pure nofun
  | assign => exact .assign ..
  | step => exact .update ..
  | var => exact .declare ..
  | block body => exact execBlock_stays body stays
  | ifElse _ init cond body orElse =>
    rw [Stmt.continues, Bool.or_eq_false_iff] at stays
    refine .inScope (.bind _ fun _ => .bind _ fun holds => ?_)
    cases holds with
    | true => exact execBlock_stays body stays.1
    | false => exact execOption_stays orElse stays.2
  | forLoop => exact .inScope (.bind _ fun _ => .loop ..)
  | range => exact .bind _ fun _ => .bind _ fun _ => .forEach ..
  | switch _ init tag cases =>
    have chosen (i : Option Nat) : Stays (do
        match i.bind ((caseBodies p call rounds cases)[·]?) with
        | none => return .next
        | some body =>
          match ← body with
          | .breaks => return .next
          | flow => return flow) := by
      split
      · exact .pure nofun
      case h_2 body found =>
        obtain ⟨i, _, at_⟩ := Option.bind_eq_some_iff.1 found
        exact (caseBodies_stay cases stays body (List.mem_of_getElem? at_)).switched
    refine .inScope (.bind _ fun _ => ?_)
    cases tag with
    | none => exact .bind _ fun _ => .bind _ chosen
    | some tag => exact .bind _ fun _ => .bind _ chosen
  | ret _ values =>
    rcases values with _ | ⟨e, _ | _⟩
    all_goals exact .bind _ fun _ => .pure nofun
  | breakLoop => exact .pure nofun
  | continueLoop => cases stays

theorem execOption_stays (s : Option Stmt) (stays : Stmt.optionContinues s = false) :
    Stays (execOption p call rounds s) := by
  cases s with
  | none => exact .pure nofun
  | some s => exact exec_stays s stays

theorem execBlock_stays (b : Block) (stays : Stmt.blockContinues b = false) :
    Stays (execBlock p call rounds b) := by
  obtain ⟨_, statements⟩ := b
  exact .inScope (.sequence (steps_stay statements stays))

theorem steps_stay (statements : List Stmt) (stays : Stmt.listContinues statements = false) :
    ∀ x ∈ steps p call rounds statements, Stays x := by
  cases statements with
  | nil => exact List.forall_mem_nil _
  | cons s rest =>
    rw [Stmt.listContinues, Bool.or_eq_false_iff] at stays
    exact List.forall_mem_cons.2 ⟨exec_stays s stays.1, steps_stay rest stays.2⟩

theorem caseBodies_stay (cases : List Case) (stays : Stmt.casesContinue cases = false) :
    ∀ x ∈ caseBodies p call rounds cases, Stays x := by
  cases cases with
  | nil => exact List.forall_mem_nil _
  | cons c rest =>
    obtain ⟨_, _, body⟩ := c
    rw [Stmt.casesContinue, Bool.or_eq_false_iff] at stays
    exact List.forall_mem_cons.2
      ⟨.inScope (.sequence (steps_stay body stays.1)), caseBodies_stay rest stays.2⟩

end

end

-- How a round of a loop goes on behind its body: a `break` or a `return` leaves the loop, and in
-- all other cases `after` is run.
def followedBy (body after : Step Flow) : Step Flow := do
  match ← body with
  | .breaks => return .breaks
  | .returns vs => return .returns vs
  | .next | .continues => after

theorem followedBy_run (body after : Step Flow) (f : Frame) :
    body.followedBy after f = body f >>= fun r =>
      match r.1 with
      | .breaks => pure (.breaks, r.2)
      | .returns vs => pure (.returns vs, r.2)
      | .next | .continues => after r.2 := by
  rw [followedBy, bind_run]
  congr 1
  funext ⟨flow, f'⟩
  cases flow <;> rfl

-- A round ends normally after the post statement, however that ends.
def ending (post : Step Flow) : Step Flow := do
  let _ ← post
  return .next

-- The post statement of a loop follows its body.
theorem loop_followedBy (cond : Step Bool) (body post : Step Flow) (rounds : Nat) :
    loop cond body post rounds =
      loop cond (body.followedBy post.ending) (return .next) rounds := by
  induction rounds with
  | zero => rfl
  | succ rounds ih =>
    rw [loop, loop]
    refine bind_congr fun go => ?_
    cases go with
    | false => rfl
    | true =>
      simp only [if_true, followedBy, bind_assoc]
      refine bind_congr fun flow => ?_
      cases flow with
      | breaks => rfl
      | returns => rfl
      | next => simp only [ih, followedBy, ending, bind_assoc, pure_bind]
      | continues => simp only [ih, followedBy, ending, bind_assoc, pure_bind]

-- Steps of which none sends the loop to its next round are followed by what is appended to them.
theorem sequence_append_of_stay {xs : List (Step Flow)} (stay : ∀ x ∈ xs, Stays x)
    (ys : List (Step Flow)) : sequence (xs ++ ys) = (sequence xs).followedBy (sequence ys) := by
  rw [sequence_append]
  funext f m
  rw [followedBy_run, bind_run]
  cases run : sequence xs f m with
  | error => simp only [bind, EStateM.bind, run]
  | ok ended m₁ =>
    obtain ⟨flow, f₁⟩ := ended
    simp only [bind, EStateM.bind, run]
    cases flow with
    | continues => exact absurd run (Stays.sequence stay).not_continues
    | _ => rfl

-- Runs a step up to the end of the scope that it is in.
def leaving (x : Step Flow) : Step Flow := do
  let flow ← x
  modify Frame.pop
  return flow

theorem leaving_run (x : Step Flow) (f : Frame) :
    leaving x f = x f >>= fun r => pure (r.1, r.2.pop) := rfl

-- Wherever the body of a round gets to its end, what is appended to it does inside the round's
-- scope, with the post statement that is kept, what the post statement did outside.
def Relocates (body appended : List (Step Flow)) (kept post : Step Flow) : Prop :=
  ∀ (f : Frame) m f₁ m₁, sequence body f.push m = .ok (.next, f₁) m₁ →
    (leaving (sequence appended)).followedBy kept.ending f₁ m₁ = post.ending f₁.pop m₁

theorem inScope_append_of_stay {xs ys : List (Step Flow)} {kept post : Step Flow}
    (stay : ∀ x ∈ xs, Stays x) (moved : Relocates xs ys kept post) :
    (inScope (sequence (xs ++ ys))).followedBy kept.ending =
      (inScope (sequence xs)).followedBy post.ending := by
  rw [sequence_append_of_stay stay]
  funext f m
  simp only [followedBy_run, inScope_run]
  cases run : sequence xs f.push m with
  | error => simp only [bind, EStateM.bind, run]
  | ok ended m₁ =>
    obtain ⟨flow, f₁⟩ := ended
    simp only [bind, EStateM.bind, run]
    cases flow with
    | continues => exact absurd run (Stays.sequence stay).not_continues
    | next =>
      have same := moved f m f₁ m₁ run
      rw [followedBy_run, leaving_run] at same
      exact same
    | breaks => rfl
    | returns => rfl

-- A loop goes on as before when a part of its post statement moves to the end of its body.
theorem loop_append_of_stay {xs ys : List (Step Flow)} {kept post : Step Flow}
    (stay : ∀ x ∈ xs, Stays x) (moved : Relocates xs ys kept post) (cond : Step Bool)
    (rounds : Nat) :
    loop cond (inScope (sequence (xs ++ ys))) kept rounds =
      loop cond (inScope (sequence xs)) post rounds := by
  rw [loop_followedBy, inScope_append_of_stay stay moved, ← loop_followedBy]

-- Leaves a mark on the machine.
def marking (mark : Exec Unit) : Step Flow := do
  mark
  return .next

-- The variables of the round do not matter to a mark.
theorem Relocates.marking (body : List (Step Flow)) (mark : Exec Unit) (post : Step Flow) :
    Relocates body [marking mark] post (do let _ ← marking mark; post) := by
  intro f m f₁ m₁ _
  rw [followedBy_run, leaving_run, sequence_single]
  simp only [Step.marking, ending, bind_run, lift_run, pure_run, bind_assoc, pure_bind]

section

variable (p : Program) (call : CallHandler) (rounds : Nat)

-- What is done to a variable in a scope that does not declare it.
theorem accessName_push {α : Type} (x : String) (g : Place.Access α) (f : Frame) :
    Place.accessName x g f.push = Place.accessName x g f >>= fun r => pure (r.1, r.2.push) := by
  cases known : f.get? x with
  | some c =>
    rw [Place.accessName_run known, Place.accessName_run (f.get?_push x ▸ known), bind_assoc]
    rfl
  | none =>
    have machine (f : Frame) : (getThe Machine : Step Machine) f =
        (getThe Machine : Exec Machine) >>= fun m => pure (m, f) := rfl
    have set (w : Machine → Machine) (f : Frame) : (modifyThe Machine w : Step Unit) f =
        (modifyThe Machine w : Exec Unit) >>= fun _ => pure ((), f) := rfl
    have read (f : Frame) : (get : Step Frame) f = pure (f, f) := rfl
    simp only [Place.accessName, bind_run, read, pure_bind, Frame.get?_push, known, machine,
      lift_run, set, bind_assoc, pure_run]

-- A counter is counted up alike in a scope that does not declare it, and that ends normally.
theorem exec_step_push {at_ : Span} (span : Span) (x : String) (increment : Bool) (f : Frame) :
    exec p call rounds (.step span (.ident at_ x) increment) f.push =
      exec p call rounds (.step span (.ident at_ x) increment) f >>= fun r =>
        pure (.next, r.2.push) := by
  by_cases blank : x = "_"
  · simp only [exec, update, resolve, bind_run, reading_run, Place.resolve, if_pos blank, pure_bind,
      Place.read, Place.write, Place.access, bind_assoc, lift_run, pure_run]
  · simp only [exec, update, resolve, bind_run, reading_run, Place.resolve, if_neg blank, pure_bind,
      Place.read, Place.write, Place.access, accessName_push, bind_assoc, lift_run, pure_run]

theorem exec_step_ending {at_ : Span} (span : Span) (x : String) (increment : Bool) :
    (exec p call rounds (.step span (.ident at_ x) increment)).ending =
      exec p call rounds (.step span (.ident at_ x) increment) := by
  simp only [exec, update, ending, bind_assoc, pure_bind]

-- A body that declares nothing may count up a counter at its end.
theorem Relocates.counter {body : List (Step Flow)} {at_ : Span} (span : Span) (x : String)
    (increment : Bool) (opens : ∀ (f : Frame) m f₁ m₁,
      sequence body f.push m = .ok (.next, f₁) m₁ → f₁.pop.push = f₁) :
    Relocates body [exec p call rounds (.step span (.ident at_ x) increment)] (return .next)
      (exec p call rounds (.step span (.ident at_ x) increment)) := by
  intro f m f₁ m₁ run
  rw [followedBy_run, leaving_run, sequence_single, ← opens f m f₁ m₁ run, exec_step_push,
    ← exec_step_ending]
  simp only [ending, bind_run, bind_assoc, pure_run, pure_bind, Frame.pop_push]

-- What breaks under a condition or goes on leaves the variables as they are.
theorem frame_of_branch_break {span at_ : Span} {cond : Expr} {f f₁ : Frame} {m m₁ : Machine}
    (run : exec p call rounds (Code.branch span none cond [.breakLoop at_]) f m =
      .ok (.next, f₁) m₁) : f₁ = f := by
  rw [exec_branch] at run
  obtain ⟨breaks, m₂, _, run⟩ := Exec.ok_bind.1 run
  cases breaks with
  | true => cases run
  | false =>
    cases run
    rfl

-- Without a `continue` for the loop around them, statements never end in one. What is appended to
-- them then follows them from every state as the post statement follows the body of a loop: a mark
-- is left in the same rounds, and a post statement may move to the end of the body.
theorem appended_where_post (body : List Stmt) (stays : Stmt.listContinues body = false) :
    (∀ f m f₂ m₂, sequence (steps p call rounds body) f m ≠ .ok (.continues, f₂) m₂) ∧
    (∀ after, sequence (steps p call rounds (body ++ after)) =
      (sequence (steps p call rounds body)).followedBy (sequence (steps p call rounds after))) ∧
    (∀ cond post count,
      loop cond (inScope (sequence (steps p call rounds body))) post count =
        loop cond ((inScope (sequence (steps p call rounds body))).followedBy post.ending)
          (return .next) count) ∧
    (∀ mark cond post count,
      loop cond (inScope (sequence (steps p call rounds body ++ [marking mark]))) post count =
        loop cond (inScope (sequence (steps p call rounds body)))
          (do let _ ← marking mark; post) count) ∧
    ∀ span init cond kept post at_ after,
      Relocates (steps p call rounds body) (steps p call rounds after)
        (execOption p call rounds kept) (execOption p call rounds post) →
      exec p call rounds (.forLoop span init cond kept (.mk at_ (body ++ after))) =
        exec p call rounds (.forLoop span init cond post (.mk at_ body)) := by
  have stay := steps_stay p call rounds body stays
  refine ⟨fun _ _ _ _ => (Stays.sequence stay).not_continues, fun after => ?_,
    fun cond post count => loop_followedBy cond _ post count,
    fun mark cond post count => loop_append_of_stay stay (.marking _ mark post) cond count,
    fun span init cond kept post at_ after moved => ?_⟩
  · rw [steps_append, sequence_append_of_stay stay]
  · simp only [exec, execBlock, steps_append, loop_append_of_stay stay moved]

end

-- Counting up at the end of a body that may break, instead of after it.
theorem appended_where_post_counter :
    Stmt.listContinues [Code.branch .nowhere none (Code.ident .nowhere "done")
      [.breakLoop .nowhere]] = false ∧
    exec ⟨[]⟩ (fun _ _ _ => return []) 3 (.forLoop .nowhere none none none (.mk .nowhere
        [Code.branch .nowhere none (Code.ident .nowhere "done") [.breakLoop .nowhere],
          .step .nowhere (.ident .nowhere "i") true])) =
      exec ⟨[]⟩ (fun _ _ _ => return []) 3 (.forLoop .nowhere none none
        (some (.step .nowhere (.ident .nowhere "i") true)) (.mk .nowhere
          [Code.branch .nowhere none (Code.ident .nowhere "done") [.breakLoop .nowhere]])) := by
  refine ⟨rfl, (appended_where_post _ _ _
    [Code.branch .nowhere none (Code.ident .nowhere "done") [.breakLoop .nowhere]] rfl).2.2.2.2
    _ _ _ _ _ _ [.step .nowhere (.ident .nowhere "i") true] ?_⟩
  refine .counter _ _ _ _ _ _ fun f m f₁ m₁ run => ?_
  rw [steps, steps, sequence_single] at run
  rw [frame_of_branch_break _ _ _ run, Frame.pop_push]

end Step

end FieldAccess
