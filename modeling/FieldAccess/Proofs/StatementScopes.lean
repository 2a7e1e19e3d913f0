import FieldAccess.Proofs.ExpressionScopes
import FieldAccess.Proofs.PlainAssignment

namespace FieldAccess

open Program (maxDepth)

-- What a body that ends like this gives its caller.
def Flow.results : Flow → List Value
  | .returns vs => vs
  | _ => []

namespace Running

variable {α β : Type} {d : Nat} {f : Frame} {s : Interpreter}

-- What the interpreter comes to from `s`, where a step comes to the second. After a fault no scope
-- is looked at any more, but they are still as many.
inductive Balances (s : Interpreter) :
    EStateM.Result ExecFault Interpreter α → EStateM.Result ExecFault Machine (α × Frame) → Prop
  | ok {a : α} {f : Frame} {m : Machine} {peak : Nat} (balanced : f.scopes.length = s.scopes.length)
      (bounded : peak ≤ max s.peak maxDepth) :
    Balances s (.ok a ⟨m, f.scopes, s.depth, peak⟩) (.ok (a, f) m)
  | error {fault : ExecFault} {scopes : List (Table String)} {m : Machine} {peak : Nat}
      (balanced : scopes.length = s.scopes.length) (bounded : peak ≤ max s.peak maxDepth) :
    Balances s (.error fault ⟨m, scopes, s.depth, peak⟩) (.error fault m)

-- With `d` calls under way, the first does what the second does.
def Runs (d : Nat) (x : Running α) (y : Step α) : Prop :=
  ∀ s : Interpreter, s.depth = d → Balances s (x s) (y s.frame s.machine)

namespace Runs

theorem pure (a : α) : Runs d (pure a) (pure a) :=
  fun s _ => .ok (f := s.frame) rfl (Nat.le_max_left ..)

theorem bind {x : Running α} {y : Step α} {g : α → Running β} {k : α → Step β}
    (hx : Runs d x y) (hg : ∀ a, Runs d (g a) (k a)) : Runs d (x >>= g) (y >>= k) :=
  fun s level => by
    have first := hx s level
    change Balances s (EStateM.bind x g s)
      (EStateM.bind (y s.frame) (fun r => k r.1 r.2) s.machine)
    rw [EStateM.bind, EStateM.bind]
    revert first
    generalize x s = r, y s.frame s.machine = r'
    rintro (⟨balanced, bounded⟩ | ⟨balanced, bounded⟩)
    case ok a f m peak =>
      have second := hg a ⟨m, f.scopes, s.depth, peak⟩ level
      dsimp only [Interpreter.frame] at second ⊢
      revert second
      generalize g a _ = r, k a _ _ = r'
      rintro (⟨balanced', bounded'⟩ | ⟨balanced', bounded'⟩)
      case ok => exact .ok (balanced'.trans balanced) (by dsimp only at bounded'; omega)
      case error => exact .error (balanced'.trans balanced) (by dsimp only at bounded'; omega)
    case error => exact .error balanced bounded

theorem reading {x : Running α} {y : Frame → Exec α} (h : ∀ f, Reads d f x (y f)) :
    Runs d x (Step.reading y) := fun s level => by
  have read := h s.frame s rfl level
  change Balances s (x s) (EStateM.bind (y s.frame) (fun a => Pure.pure (a, s.frame)) s.machine)
  rw [EStateM.bind]
  revert read
  generalize x s = r, y s.frame s.machine = r'
  rintro (⟨bounded⟩ | ⟨bounded⟩)
  case ok => exact .ok (f := s.frame) rfl bounded
  case error => exact .error rfl bounded

theorem lift (y : Exec α) : Runs d (liftM y) (liftM y) :=
  reading fun _ => .lift y

-- An access to variables that opens and closes no scope.
theorem onFrame {y : Step α} (keeps : ∀ {f f' m m' a}, y f m = .ok (a, f') m' →
    f'.scopes.length = f.scopes.length) : Runs d (onFrame y) y := fun s _ => by
  rw [Running.onFrame]
  cases run : y s.frame s.machine with
  | ok r m => exact .ok (keeps run) (Nat.le_max_left ..)
  | error fault m => exact .error rfl (Nat.le_max_left ..)

theorem define (name : String) (v : Value) : Runs d (define name v) (Step.define name v) :=
  onFrame fun {f f' m m' a} run => by
    cases run
    exact f.length_define name v

theorem read (place : Place) : Runs d (read place) place.read :=
  onFrame fun run => place.access_depth run

theorem write (place : Place) (v : Value) : Runs d (write place v) (place.write v) :=
  onFrame fun run => place.access_depth run

-- The scope that is opened is closed after a fault, too.
theorem inScope {x : Running α} {y : Step α} (h : Runs d x y) :
    Runs d (inScope x) (Step.inScope y) := fun s level => by
  have inner := h s.openScope level
  change Balances s (x.closing Interpreter.closeScope s.openScope)
    (EStateM.bind (y s.frame.push) (fun r => Pure.pure (r.1, r.2.pop)) s.machine)
  rw [closing, EStateM.bind]
  revert inner
  change Balances _ _ (y s.frame.push s.machine) → _
  generalize x s.openScope = r, y s.frame.push s.machine = r'
  rintro (⟨balanced, bounded⟩ | ⟨balanced, bounded⟩)
  case ok a f m peak =>
    refine .ok (f := f.pop) ?_ bounded
    rw [Frame.pop, List.length_tail, balanced]
    rfl
  case error =>
    refine .error ?_ bounded
    rw [List.length_tail, balanced]
    rfl

theorem ite {x x' : Running α} {y y' : Step α} {c : Prop} [Decidable c] (h : Runs d x y)
    (h' : Runs d x' y') : Runs d (if c then x else x') (if c then y else y') := by
  by_cases holds : c
  · rw [if_pos holds, if_pos holds]
    exact h
  · rw [if_neg holds, if_neg holds]
    exact h'

theorem defineAll (names : List String) (vs : List Value) :
    Runs d (defineAll names vs) (Step.defineAll names vs) := by
  induction names generalizing vs with
  | nil => exact pure _
  | cons name names ih =>
    cases vs with
    | nil => exact pure _
    | cons v vs => exact bind (define _ _) fun _ => ih vs

theorem defineTargets (targets : List Expr) (vs : List Value) :
    Runs d (defineTargets targets vs) (Step.defineTargets targets vs) := by
  induction targets generalizing vs with
  | nil => exact pure _
  | cons target targets ih =>
    cases vs with
    | nil => exact pure _
    | cons v vs => exact bind (lift _) fun _ => bind (define _ _) fun _ => ih vs

theorem writeAll (places : List Place) (vs : List Value) :
    Runs d (writeAll places vs) (Step.writeAll places vs) := by
  induction places generalizing vs with
  | nil => exact pure _
  | cons place places ih =>
    cases vs with
    | nil => exact pure _
    | cons v vs => exact bind (write place v) fun _ => ih vs

theorem loop {cond : Running Bool} {cond' : Step Bool} {body post : Running Flow}
    {body' post' : Step Flow} (hc : Runs d cond cond') (hb : Runs d body body')
    (hp : Runs d post post') (rounds : Nat) :
    Runs d (loop cond body post rounds) (Step.loop cond' body' post' rounds) := by
  induction rounds with
  | zero => exact lift _
  | succ rounds ih =>
    refine bind hc fun holds => ite (bind hb fun flow => ?_) (pure _)
    cases flow with
    | breaks => exact pure _
    | returns vs => exact pure _
    | next => exact bind hp fun _ => ih
    | continues => exact bind hp fun _ => ih

theorem forEach {round : α → Running Flow} {round' : α → Step Flow}
    (h : ∀ a, Runs d (round a) (round' a)) (as : List α) :
    Runs d (forEach round as) (Step.forEach round' as) := by
  induction as with
  | nil => exact pure _
  | cons a rest ih =>
    refine bind (h a) fun flow => ?_
    cases flow with
    | breaks => exact pure _
    | returns vs => exact pure _
    | next => exact ih
    | continues => exact ih

theorem sequence {xs : List (Running Flow)} {ys : List (Step Flow)}
    (h : List.Forall₂ (Runs d) xs ys) : Runs d (sequence xs) (Step.sequence ys) := by
  induction h with
  | nil => exact pure _
  | cons first _ ih =>
    refine bind first fun flow => ?_
    cases flow with
    | next => exact ih
    | breaks => exact pure _
    | continues => exact pure _
    | returns vs => exact pure _

end Runs

section

variable {p : Program} {call : Handler} {call' : CallHandler} (agrees : call.Agrees d call')

include agrees

theorem eval_runs (e : Expr) : Runs d (eval p call e) (Step.eval p call' e) :=
  .reading fun _ => eval_reads agrees e

theorem evalFor_runs (count : Nat) (es : List Expr) :
    Runs d (evalFor p call count es) (Step.evalFor p call' count es) :=
  .reading fun _ => evalFor_reads agrees count es

theorem resolve_runs (e : Expr) : Runs d (resolve p call e) (Step.resolve p call' e) :=
  .reading fun _ => resolve_reads agrees e

theorem resolveAll_runs (es : List Expr) :
    Runs d (resolveAll p call es) (Step.resolveAll p call' es) := by
  induction es with
  | nil => exact .pure _
  | cons e rest ih => exact .bind (resolve_runs agrees e) fun _ => .bind ih fun _ => .pure _

theorem update_runs (op : BinaryOp) (target : Expr) {x : Running Value} {y : Step Value}
    (h : Runs d x y) : Runs d (update p call op target x) (Step.update p call' op target y) :=
  .bind (resolve_runs agrees target) fun place =>
    .bind (.read place) fun _ => .bind h fun _ => .bind (.lift _) fun v =>
      .bind (.write place v) fun _ => .pure _

theorem assign_runs (targets : List Expr) (op : AssignOp) (values : List Expr) :
    Runs d (assign p call targets op values) (Step.assign p call' targets op values) := by
  cases op with
  | compound op =>
    match targets, values with
    | [target], [value] => exact update_runs agrees op target (eval_runs agrees value)
    | [_], [] | [_], _ :: _ :: _ | [], _ | _ :: _ :: _, _ => exact .lift _
  | define =>
    exact .bind (evalFor_runs agrees _ _) fun vs => .bind (.defineTargets targets vs) fun _ =>
      .pure _
  | assign =>
    exact .bind (resolveAll_runs agrees targets) fun places =>
      .bind (evalFor_runs agrees _ _) fun vs => .bind (.writeAll places vs) fun _ => .pure _

theorem declare_runs (names : List String) (type : Option TypeExpr) (values : List Expr) :
    Runs d (declare p call names type values) (Step.declare p call' names type values) := by
  have declared (vs : List Value) : Runs d
      (do defineAll names vs; return Flow.next) (do Step.defineAll names vs; return Flow.next) :=
    .bind (.defineAll names vs) fun _ => .pure _
  exact .ite (.bind (.pure _) declared) (.bind (evalFor_runs agrees _ _) declared)

theorem bindItem_runs (define : Bool) (v : Value) (target : Option Expr) :
    Runs d (bindItem p call define v target) (Step.bindItem p call' define v target) := by
  cases target with
  | none => exact .pure _
  | some target =>
    have assigned : Runs d (do write (← resolve p call target) v)
        (do (← Step.resolve p call' target).write v) :=
      .bind (resolve_runs agrees target) fun place => .write place v
    unfold bindItem Step.bindItem
    dsimp only
    cases define with
    | false => exact assigned
    | true =>
      cases target.ident? with
      | none => exact assigned
      | some name => exact .define name v

theorem matchesTag_runs (tag : Value) (es : List Expr) :
    Runs d (matchesTag p call tag es) (Step.matchesTag p call' tag es) := by
  induction es with
  | nil => exact .pure _
  | cons e rest ih => exact .bind (eval_runs agrees e) fun v => .ite (.pure _) ih

theorem chooseCase_runs (tag : Value) (cases : List Case) :
    Runs d (chooseCase p call tag cases) (Step.chooseCase p call' tag cases) := by
  have from_position (rest : List Case) (position : Nat) :
      Runs d (chooseCase.go p call tag cases position rest)
        (Step.chooseCase.go p call' tag cases position rest) := by
    induction rest generalizing position with
    | nil => exact .pure _
    | cons c rest ih => exact .bind (matchesTag_runs agrees tag _) fun _ => .ite (.pure _) (ih _)
  exact from_position cases 0

end

variable {p : Program} {call : Handler} {call' : CallHandler} {rounds : Nat}

mutual

theorem exec_runs (agrees : call.Agrees d call') (st : Stmt) :
    Runs d (exec p call rounds st) (Step.exec p call' rounds st) := by
  cases st with
  | empty => exact .pure _
  | expr e => exact .bind (.reading fun _ => evalAll_reads agrees e) fun _ => .pure _
  | assign _ targets op values => exact assign_runs agrees targets op values
  | step _ target => exact update_runs agrees _ target (.pure _)
  | var _ names type values => exact declare_runs agrees names type values
  | block body => exact execBlock_runs agrees body
  | ifElse _ init cond body orElse =>
    exact .inScope (.bind (execOption_runs agrees init) fun _ =>
      .bind (.reading fun _ => check_reads agrees cond) fun _ =>
        .ite (execBlock_runs agrees body) (execOption_runs agrees orElse))
  | forLoop _ init cond post body =>
    have body := execBlock_runs agrees body
    have post := execOption_runs agrees post
    refine .inScope (.bind (execOption_runs agrees init) fun _ => ?_)
    cases cond with
    | none => exact .loop (.pure _) body post rounds
    | some cond => exact .loop (.reading fun _ => check_reads agrees cond) body post rounds
  | range _ key value define iterable body =>
    have body := execBlock_runs agrees body
    refine .bind (eval_runs agrees iterable) fun v =>
      .bind (.lift _) (.forEach fun item => ?_)
    exact .inScope (.bind (bindItem_runs agrees define item.1 key) fun _ =>
      .bind (bindItem_runs agrees define item.2 value) fun _ => body)
  | switch _ init tag cases =>
    have chosen (i : Option Nat) : Runs d
        (do
          match i.bind ((caseBodies p call rounds cases)[·]?) with
          | none => return Flow.next
          | some body =>
            match ← body with
            | .breaks => return Flow.next
            | flow => return flow)
        (do
          match i.bind ((Step.caseBodies p call' rounds cases)[·]?) with
          | none => return Flow.next
          | some body =>
            match ← body with
            | .breaks => return Flow.next
            | flow => return flow) := by
      cases i with
      | none => exact .pure _
      | some i =>
        rw [Option.bind_some, Option.bind_some]
        have bodies := forall₂_getElem? (caseBodies_run agrees cases) i
        revert bodies
        generalize (caseBodies p call rounds cases)[i]? = x,
          (Step.caseBodies p call' rounds cases)[i]? = y
        rintro (body | _)
        case some =>
          refine .bind body fun flow => ?_
          cases flow <;> exact .pure _
        case none => exact .pure _
    have choose (tag : Value) := (chooseCase_runs (p := p) agrees tag cases).bind chosen
    refine .inScope (.bind (execOption_runs agrees init) fun _ => ?_)
    cases tag with
    | none => exact .bind (.pure _) choose
    | some tag => exact .bind (eval_runs agrees tag) choose
  | ret _ values =>
    rcases values with _ | ⟨e, _ | _⟩
    · exact .bind (.reading fun _ => .all (actions_read agrees _)) fun _ => .pure _
    · exact .bind (.reading fun _ => evalAll_reads agrees e) fun _ => .pure _
    · exact .bind (.reading fun _ => .all (actions_read agrees _)) fun _ => .pure _
  | breakLoop => exact .pure _
  | continueLoop => exact .pure _

theorem execOption_runs (agrees : call.Agrees d call') (st : Option Stmt) :
    Runs d (execOption p call rounds st) (Step.execOption p call' rounds st) := by
  cases st with
  | none => exact .pure _
  | some st => exact exec_runs agrees st

theorem execBlock_runs (agrees : call.Agrees d call') (b : Block) :
    Runs d (execBlock p call rounds b) (Step.execBlock p call' rounds b) := by
  obtain ⟨_, statements⟩ := b
  exact .inScope (.sequence (steps_run agrees statements))

theorem steps_run (agrees : call.Agrees d call') (sts : List Stmt) :
    List.Forall₂ (Runs d) (steps p call rounds sts) (Step.steps p call' rounds sts) := by
  cases sts with
  | nil => exact .nil
  | cons st rest => exact .cons (exec_runs agrees st) (steps_run agrees rest)

theorem caseBodies_run (agrees : call.Agrees d call') (cases : List Case) :
    List.Forall₂ (Runs d) (caseBodies p call rounds cases) (Step.caseBodies p call' rounds cases) := by
  cases cases with
  | nil => exact .nil
  | cons c rest =>
    obtain ⟨_, _, body⟩ := c
    exact .cons (.inScope (.sequence (steps_run agrees body))) (caseBodies_run agrees rest)

end

-- The caller's scopes come back after a fault, too.
theorem Reads.within {x : Running α} {y : Step α} (h : Runs (d + 1) x y) (room : d < maxDepth)
    (parameters : Table String) :
    Reads d f (within parameters x) (Prod.fst <$> y (.ofTable parameters)) := fun s _ level => by
  have inner := h (s.enter parameters) (congrArg (· + 1) level)
  change Restores s (x.closing (Interpreter.leave s.scopes) (s.enter parameters))
    (EStateM.map Prod.fst (y (.ofTable parameters)) s.machine)
  rw [closing, EStateM.map]
  revert inner
  change Balances _ _ (y (.ofTable parameters) s.machine) → _
  generalize x (s.enter parameters) = r, y (.ofTable parameters) s.machine = r'
  rintro (⟨_, bounded⟩ | ⟨_, bounded⟩)
  all_goals
    replace bounded : _ ≤ max (max s.peak (s.depth + 1)) maxDepth := bounded
    have still : max (max s.peak (s.depth + 1)) maxDepth = max s.peak maxDepth := by omega
    rw [still] at bounded
  case ok => exact .ok bounded
  case error => exact .error bounded

theorem Reads.of_eq {x : Running α} {y y' : Exec α} (h : Reads d f x y) (same : y = y') :
    Reads d f x y' :=
  same ▸ h

-- The interpreter asks for what only it has.
theorem Reads.asking {g : Interpreter → Running β} {y : Exec β}
    (h : ∀ s : Interpreter, s.depth = d → Reads d f (g s) y) : Reads d f (get >>= g) y :=
  fun s here level => h s level s here level

theorem invoke_full (full : maxDepth ≤ d) (nested : Nat) (g : FuncDecl) (receiver : Option Value)
    (args : List Value) :
    Reads d f (invoke p rounds nested g receiver args) (p.invoke rounds 0 g receiver args) := by
  unfold invoke Program.invoke
  refine .ite (.lift _) (.asking fun s level => ?_)
  rw [if_pos (level ▸ full)]
  exact .lift _

theorem invoke_room (room : d < maxDepth) {nested left : Nat}
    (inner : Handler.Agrees (d + 1) (invoke p rounds nested) (p.invoke rounds left)) (g : FuncDecl)
    (receiver : Option Value) (args : List Value) :
    Reads d f (invoke p rounds (nested + 1) g receiver args)
      (p.invoke rounds (left + 1) g receiver args) := by
  unfold invoke Program.invoke
  refine .ite (.lift _) (.asking fun s level => ?_)
  rw [if_neg (by omega)]
  have body : Runs (d + 1) (sequence (steps p (invoke p rounds nested) rounds g.body.statements))
      (Step.sequence (Step.steps p (p.invoke rounds left) rounds g.body.statements)) :=
    .sequence (steps_run inner g.body.statements)
  refine Reads.of_eq ((Reads.within body room (Program.parameters g receiver args)).bind
    (k := fun flow => pure flow.results) fun flow => ?_) ?_
  · cases flow <;> exact .pure _
  · rw [bind_map_left]
    refine bind_congr ?_
    rintro ⟨flow, _⟩
    cases flow <;> rfl

-- One step of the recursion for each call that may still be under way. The depth rises with each
-- call, so it reaches its bound before the steps are used up.
theorem invoke_agrees (nested : Nat) (enough : maxDepth ≤ nested + d) :
    Handler.Agrees d (invoke p rounds nested) (p.invoke rounds (maxDepth - d)) := by
  induction nested generalizing d with
  | zero =>
    intro g receiver args f
    rw [Nat.sub_eq_zero_of_le (by omega)]
    exact invoke_full (by omega) 0 g receiver args
  | succ nested ih =>
    intro g receiver args f
    by_cases full : maxDepth ≤ d
    · rw [Nat.sub_eq_zero_of_le full]
      exact invoke_full full _ g receiver args
    · have inner := ih (d := d + 1) (by omega)
      rw [show maxDepth - d = maxDepth - (d + 1) + 1 by omega]
      exact invoke_room (by omega) inner g receiver args

theorem callMethod_reads (p : Program) (rounds : Nat) (receiver : Value) (name : String)
    (args : List Value) :
    Reads d f (callMethod p rounds receiver name args)
      (Exec.callMethod p (p.invoke rounds (maxDepth - d)) receiver name args) :=
  dispatchMethod_reads (invoke_agrees maxDepth (Nat.le_add_right ..)) receiver name args

theorem callFunction_reads (p : Program) (rounds : Nat) (name : String) (args : List Value) :
    Reads d f (callFunction p rounds name args)
      (Exec.orFail (.undefined name) (p.function? name) >>= fun g =>
        p.invoke rounds (maxDepth - d) g none args) :=
  .bind (.lift _) fun g => invoke_agrees maxDepth (Nat.le_add_right ..) g none args f

-- The interpreter in which a computation ends, with a result or with a fault.
def last (x : Running α) (s : Interpreter) : Interpreter :=
  match x s with
  | .ok _ s' => s'
  | .error _ s' => s'

-- However the first ends, the scopes and the depth are those of `s`, never have more calls been under
-- way than may, and all else is as the second leaves it.
structure LeavesAsFound (s : Interpreter) (x : Running α) (y : Exec α) : Prop where
  scopes : (x.last s).scopes = s.scopes
  depth : (x.last s).depth = s.depth
  peak : (x.last s).peak ≤ max s.peak maxDepth
  outcome : x s = onMachine y { s with peak := (x.last s).peak }

theorem Reads.leavesAsFound {x : Running α} {y : Exec α} (h : Reads s.depth s.frame x y) :
    LeavesAsFound s x y := by
  have restored := h s rfl rfl
  cases run : x s <;> cases run' : y s.machine <;> rw [run, run'] at restored
  case ok.ok =>
    cases restored with
    | ok bounded => constructor <;> simp [last, onMachine, run, run', bounded]
  case error.error =>
    cases restored with
    | error bounded => constructor <;> simp [last, onMachine, run, run', bounded]
  all_goals cases restored

-- Whatever is called, on whatever it is called and however it ends.
theorem calls_leave_scopes_and_depth (p : Program) (rounds : Nat) (s : Interpreter) :
    (∀ receiver name args,
      LeavesAsFound s (callMethod p rounds receiver name args)
        (Exec.callMethod p (p.invoke rounds (maxDepth - s.depth)) receiver name args)) ∧
    ∀ name args,
      LeavesAsFound s (callFunction p rounds name args)
        (Exec.orFail (.undefined name) (p.function? name) >>= fun g =>
          p.invoke rounds (maxDepth - s.depth) g none args) :=
  ⟨fun receiver name args => (callMethod_reads p rounds receiver name args).leavesAsFound,
    fun name args => (callFunction_reads p rounds name args).leavesAsFound⟩

end Running

end FieldAccess
