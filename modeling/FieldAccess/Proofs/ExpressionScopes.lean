import FieldAccess.Eval.ScopeStack
import Mathlib.Data.List.Forall2

namespace FieldAccess

open Program (maxDepth)

namespace Running

variable {α β : Type} {d : Nat} {f : Frame} {s : Interpreter}

-- What the interpreter comes to from `s`, where a computation on the machine alone comes to the
-- second. Calls have come and gone, so the peak may have risen.
inductive Restores (s : Interpreter) :
    EStateM.Result ExecFault Interpreter α → EStateM.Result ExecFault Machine α → Prop
  | ok {a : α} {m : Machine} {peak : Nat} (bounded : peak ≤ max s.peak maxDepth) :
    Restores s (.ok a ⟨m, s.scopes, s.depth, peak⟩) (.ok a m)
  | error {fault : ExecFault} {m : Machine} {peak : Nat} (bounded : peak ≤ max s.peak maxDepth) :
    Restores s (.error fault ⟨m, s.scopes, s.depth, peak⟩) (.error fault m)

-- With the variables `f` and `d` calls under way, the first does what the second does.
def Reads (d : Nat) (f : Frame) (x : Running α) (y : Exec α) : Prop :=
  ∀ s : Interpreter, s.frame = f → s.depth = d → Restores s (x s) (y s.machine)

-- With `d` calls under way, a call does what the handler says.
def Handler.Agrees (d : Nat) (call : Handler) (call' : CallHandler) : Prop :=
  ∀ g receiver args f, Reads d f (call g receiver args) (call' g receiver args)

structure Entry.Agrees (d : Nat) (f : Frame) (e : Entry) (e' : LiteralEntry) : Prop where
  written : e.written = e'.written
  key : Reads d f e.key e'.key
  value : Reads d f e.value e'.value

namespace Reads

theorem pure (a : α) : Reads d f (pure a) (pure a) :=
  fun _ _ _ => .ok (Nat.le_max_left ..)

theorem lift (y : Exec α) : Reads d f (liftM y) y := fun s _ _ => by
  change Restores s (onMachine y s) _
  rw [onMachine]
  cases y s.machine with
  | ok a m => exact .ok (Nat.le_max_left ..)
  | error fault m => exact .error (Nat.le_max_left ..)

theorem bind {x : Running α} {y : Exec α} {g : α → Running β} {k : α → Exec β}
    (hx : Reads d f x y) (hg : ∀ a, Reads d f (g a) (k a)) : Reads d f (x >>= g) (y >>= k) :=
  fun s here level => by
    have first := hx s here level
    change Restores s (EStateM.bind x g s) (EStateM.bind y k s.machine)
    rw [EStateM.bind, EStateM.bind]
    revert first
    generalize x s = r, y s.machine = r'
    rintro (⟨bounded⟩ | ⟨bounded⟩)
    case ok a m peak =>
      have second := hg a ⟨m, s.scopes, s.depth, peak⟩ here level
      dsimp only at second ⊢
      revert second
      generalize g a _ = r, k a _ = r'
      rintro (⟨bounded'⟩ | ⟨bounded'⟩)
      case ok => exact .ok (by dsimp only at bounded'; omega)
      case error => exact .error (by dsimp only at bounded'; omega)
    case error => exact .error bounded

-- Where only the machine is asked for.
theorem get_bind {g : Interpreter → Running β} {k : Machine → Exec β}
    (h : ∀ s : Interpreter, s.frame = f → s.depth = d → Reads d f (g s) (k s.machine)) :
    Reads d f (get >>= g) (get >>= k) :=
  fun s here level => h s here level s here level

theorem map {x : Running α} {y : Exec α} (g : α → β) (h : Reads d f x y) :
    Reads d f (g <$> x) (g <$> y) := by
  rw [← bind_pure_comp, ← bind_pure_comp]
  exact bind h fun _ => pure _

theorem ite {x x' : Running α} {y y' : Exec α} {c : Prop} [Decidable c] (h : Reads d f x y)
    (h' : Reads d f x' y') : Reads d f (if c then x else x') (if c then y else y') := by
  by_cases holds : c
  · rw [if_pos holds, if_pos holds]
    exact h
  · rw [if_neg holds, if_neg holds]
    exact h'

theorem all {xs : List (Running Value)} {ys : List (Exec Value)}
    (h : List.Forall₂ (Reads d f) xs ys) : Reads d f (all xs) (Exec.all ys) := by
  induction h with
  | nil => exact pure _
  | cons first _ ih => exact bind first fun _ => bind ih fun _ => pure _

section

variable {entries : List Entry} {entries' : List LiteralEntry}

theorem sliceLiteral (h : List.Forall₂ (Entry.Agrees d f) entries entries') :
    Reads d f (sliceLiteral entries) (Exec.sliceLiteral entries') := by
  refine bind (all ?_) fun _ => pure _
  induction h with
  | nil => exact .nil
  | cons first _ ih => exact .cons first.value ih

theorem mapEntries (h : List.Forall₂ (Entry.Agrees d f) entries entries') (t : Table MapKey) :
    Reads d f (mapEntries t entries) (Exec.mapEntries t entries') := by
  induction h generalizing t with
  | nil => exact pure _
  | cons first _ ih =>
    rw [Running.mapEntries, Exec.mapEntries, first.written]
    exact bind (lift _) fun _ => bind first.key fun _ => bind (lift _) fun _ =>
      bind first.value fun _ => ih _

theorem structFields (h : List.Forall₂ (Entry.Agrees d f) entries entries') (t : Table String) :
    Reads d f (structFields t entries) (Exec.structFields t entries') := by
  induction h generalizing t with
  | nil => exact pure _
  | cons first _ ih =>
    rw [Running.structFields, Exec.structFields, first.written]
    exact bind (lift _) fun _ => bind first.value fun _ => ih _

end

end Reads

theorem binding_reads (name : String) : Reads d f (binding? name) (Exec.binding? f name) :=
  fun s here _ => by
    subst here
    exact .ok (Nat.le_max_left ..)

variable {p : Program} {call : Handler} {call' : CallHandler}

theorem dispatchMethod_reads (agrees : call.Agrees d call') (receiver : Value) (name : String)
    (args : List Value) :
    Reads d f (dispatchMethod p call receiver name args)
      (Exec.callMethod p call' receiver name args) := by
  cases receiver with
  | object address =>
    refine .get_bind fun s _ _ => ?_
    dsimp only
    cases p.method? (s.machine.object address).type name with
    | some g => exact agrees _ _ _ _
    | none =>
      cases s.machine.recordOf? (.object address) with
      | some record => exact .lift _
      | none => exact .lift _
  | _ => exact .lift _

theorem callBuiltin_reads (b : Builtin) (written : List Expr) {xs : List (Running Value)}
    {ys : List (Exec Value)} (h : List.Forall₂ (Reads d f) xs ys) :
    Reads d f (callBuiltin p b written xs) (Exec.callBuiltin p b written ys) := by
  cases b with
  | len | panic | convert =>
    match h with
    | .nil => exact .lift _
    | .cons first .nil => exact .bind first fun _ => .lift _
    | .cons _ (.cons _ _) => exact .lift _
  | append =>
    match h with
    | .nil => exact .lift _
    | .cons first rest =>
      exact .bind first fun _ => .bind (.lift _) fun _ => .bind (.all rest) fun _ => .pure _
  | make =>
    match written, h with
    | [], _ => exact .lift _
    | e :: _, .nil => cases e <;> exact .lift _
    | e :: _, .cons _ sizes =>
      cases e with
      | typeOperand _ type =>
        cases type with
        | slice element =>
          match sizes with
          | .nil => exact .bind (.pure _) fun _ => .pure _
          | .cons size _ => exact .bind size fun _ => .bind (.pure _) fun _ => .pure _
        | _ => exact .lift _
      | _ => exact .lift _

theorem callNamed_reads (agrees : call.Agrees d call') (name : String) (written : List Expr)
    {xs : List (Running Value)} {ys : List (Exec Value)} (h : List.Forall₂ (Reads d f) xs ys) :
    Reads d f (callNamed p call name written xs) (Exec.callNamed p call' f name written ys) := by
  refine .bind (binding_reads name) fun found => ?_
  dsimp only
  cases if found.isSome || (p.function? name).isSome then none
    else Builtin.of? name written.length with
  | some b => exact .bind (callBuiltin_reads b written h) fun _ => .pure _
  | none =>
    cases p.underlying? name with
    | some underlying =>
      match h with
      | .nil => exact .lift _
      | .cons first .nil => exact .bind first fun _ => .bind (.lift _) fun _ => .pure _
      | .cons _ (.cons _ _) => exact .lift _
    | none => exact .bind (.lift _) fun g => .bind (.all h) fun _ => agrees _ _ _ _

theorem callResults_reads (agrees : call.Agrees d call') (callee : Expr) {x : Running Value}
    {y : Exec Value} (base : Reads d f x y) (written : List Expr) {xs : List (Running Value)}
    {ys : List (Exec Value)} (h : List.Forall₂ (Reads d f) xs ys) :
    Reads d f (callResults p call callee x written xs)
      (Exec.callResults p call' f callee y written ys) := by
  cases callee with
  | select _ _ name =>
    exact .bind base fun _ => .bind (.all h) fun _ => dispatchMethod_reads agrees _ _ _
  | ident _ name => exact callNamed_reads agrees name written h
  | _ => exact .lift _

mutual

theorem eval_reads (agrees : call.Agrees d call') :
    ∀ e : Expr, Reads d f (eval p call e) (Exec.eval p call' f e)
  | .ident _ name => by
    rw [eval, Exec.eval]
    exact .bind (binding_reads name) fun _ => .lift _
  | .literal _ _ => by
    rw [eval, Exec.eval]
    exact .pure _
  | .select _ base member => by
    rw [eval, Exec.eval]
    exact .bind (eval_reads agrees base) fun _ => .lift _
  | .call _ callee _ args => by
    rw [eval, Exec.eval]
    exact .bind (callResults_reads agrees callee (receiver_reads agrees callee) args
      (actions_read agrees args)) fun _ => .lift _
  | .index _ base i => by
    rw [eval, Exec.eval]
    exact .bind (eval_reads agrees base) fun _ => .bind (eval_reads agrees i) fun _ => .lift _
  | .binary _ op left right => by
    have left := eval_reads agrees left
    have right := eval_reads agrees right
    by_cases hand : op = .and
    · subst hand
      rw [eval, Exec.eval]
      exact .bind left fun _ => .bind (.lift _) fun _ =>
        .ite (.bind right fun _ => .bind (.lift _) fun _ => .pure _) (.pure _)
    · by_cases hor : op = .or
      · subst hor
        rw [eval, Exec.eval]
        exact .bind left fun _ => .bind (.lift _) fun _ =>
          .ite (.pure _) (.bind right fun _ => .bind (.lift _) fun _ => .pure _)
      · rw [eval, Exec.eval]
        · exact .bind left fun _ => .bind right fun _ => .lift _
        all_goals assumption
  | .unary _ op operand => by
    rw [eval, Exec.eval]
    exact .bind (eval_reads agrees operand) fun _ => .lift _
  | .paren _ inner => by
    rw [eval, Exec.eval]
    exact eval_reads agrees inner
  | .composite _ type elements => by
    have entries := entries_agree agrees elements
    unfold eval Exec.eval
    cases type with
    | slice _ => exact .sliceLiteral entries
    | map _ _ => exact .bind (.mapEntries entries _) fun _ => .lift _
    | _ => exact .bind (.structFields entries _) fun _ => .lift _
  | .typeOperand _ _ => by
    rw [eval, Exec.eval]
    exact .lift _

theorem receiver_reads (agrees : call.Agrees d call') :
    ∀ e : Expr, Reads d f (receiver p call e) (Exec.receiver p call' f e)
  | .select _ base _ => by
    rw [receiver, Exec.receiver]
    exact eval_reads agrees base
  | .ident .. | .literal .. | .call .. | .index .. | .binary .. | .unary .. | .paren ..
  | .composite .. | .typeOperand .. => .lift _

theorem actions_read (agrees : call.Agrees d call') : ∀ es : List Expr,
    List.Forall₂ (Reads d f) (actions p call es) (Exec.actions p call' f es)
  | [] => .nil
  | e :: rest => by
    rw [actions, Exec.actions]
    exact .cons (eval_reads agrees e) (actions_read agrees rest)

theorem entries_agree (agrees : call.Agrees d call') : ∀ elements : List Element,
    List.Forall₂ (Entry.Agrees d f) (entries p call elements) (Exec.entries p call' f elements)
  | [] => .nil
  | .positional value :: rest => by
    rw [entries, Exec.entries]
    exact .cons ⟨rfl, .lift _, eval_reads agrees value⟩ (entries_agree agrees rest)
  | .keyed key value :: rest => by
    rw [entries, Exec.entries]
    exact .cons ⟨rfl, eval_reads agrees key, eval_reads agrees value⟩ (entries_agree agrees rest)

end

theorem evalAll_reads (agrees : call.Agrees d call') (e : Expr) :
    Reads d f (evalAll p call e) (Exec.evalAll p call' f e) := by
  cases e with
  | call _ callee _ args =>
    exact callResults_reads agrees callee (receiver_reads agrees callee) args
      (actions_read agrees args)
  | index _ base i =>
    exact .bind (eval_reads agrees base) fun _ => .bind (eval_reads agrees i) fun _ => .lift _
  | _ => exact .bind (eval_reads agrees _) fun _ => .pure _

theorem evalFor_reads (agrees : call.Agrees d call') (count : Nat) (es : List Expr) :
    Reads d f (evalFor p call count es) (Exec.evalFor p call' f count es) := by
  match es with
  | [e] =>
    exact .ite (.bind (evalAll_reads agrees e) fun _ => .ite (.pure _) (.lift _))
      (.bind (eval_reads agrees e) fun _ => .pure _)
  | [] | _ :: _ :: _ => exact .all (actions_read agrees _)

theorem check_reads (agrees : call.Agrees d call') (e : Expr) :
    Reads d f (check p call e) (Exec.check p call' f e) :=
  .bind (eval_reads agrees e) fun _ => .lift _

theorem resolve_reads (agrees : call.Agrees d call') :
    ∀ e : Expr, Reads d f (resolve p call e) (Place.resolve p call' f e)
  | .ident _ name => .pure _
  | .paren _ inner => by
    rw [resolve, Place.resolve]
    exact resolve_reads agrees inner
  | .select _ base member => by
    rw [resolve, Place.resolve]
    refine .bind (eval_reads agrees base) fun v => ?_
    cases v with
    | object address => exact .pure _
    | _ => exact .lift _
  | .index _ base i => by
    rw [resolve, Place.resolve]
    have item (container : Place) : Reads d f
        (do return Place.item container (← eval p call i))
        (do return Place.item container (← Exec.eval p call' f i)) :=
      .bind (eval_reads agrees i) fun _ => .pure _
    exact .ite (.bind (resolve_reads agrees base) item)
      (.bind (.map _ (eval_reads agrees base)) item)
  | .literal .. | .call .. | .binary .. | .unary .. | .composite .. | .typeOperand .. => .lift _

end Running

end FieldAccess
