import FieldAccess.Proofs.CodeRuns
import FieldAccess.Proofs.Runs

namespace FieldAccess

-- A name that is free stays free.
def Machine.KeepsFree (m m' : Machine) : Prop :=
  ∀ x, m.globals.get? x = none → m'.globals.get? x = none

namespace Machine.KeepsFree

variable {m m₁ m₂ : Machine}

theorem of_globals (h : m₁.globals = m.globals) : m.KeepsFree m₁ :=
  fun _ free => h ▸ free

theorem refl (m : Machine) : m.KeepsFree m :=
  of_globals rfl

theorem trans (h : m.KeepsFree m₁) (h' : m₁.KeepsFree m₂) : m.KeepsFree m₂ :=
  fun x free => h' x (h x free)

theorem setGlobal {x : String} (h : m.KeepsFree m₁) (bound : m.globals.get? x ≠ none) (v : Value) :
    m.KeepsFree (m₁.setGlobal x v) := fun y free => by
  have other : y ≠ x := fun same => bound (same ▸ free)
  rw [Machine.setGlobal, Table.get?_insert, if_neg other]
  exact h y free

end Machine.KeepsFree

namespace Exec

variable {α β : Type}

-- The machine in which a computation ends, with a result or with a fault.
def last (x : Exec α) (m : Machine) : Machine :=
  match x m with
  | .ok _ m' => m'
  | .error _ m' => m'

theorem last_bind (x : Exec α) (k : α → Exec β) (m : Machine) :
    (x >>= k).last m =
      match x m with
      | .ok a m' => (k a).last m'
      | .error _ m' => m' := by
  cases h : x m with
  | ok a m' => simp only [last, bind_of_ok h]
  | error fault m' => simp only [last, bind_of_error h]

-- However it ends, it has declared no package variable.
structure DeclaresNothing (x : Exec α) : Prop where
  keeps : ∀ m : Machine, m.KeepsFree (x.last m)

namespace DeclaresNothing

theorem ok {x : Exec α} (h : DeclaresNothing x) {m m' : Machine} {a : α} (run : x m = .ok a m') :
    m.KeepsFree m' := by
  have keeps := h.keeps m
  rwa [last, run] at keeps

theorem of_globals {x : Exec α} (h : ∀ m, (x.last m).globals = m.globals) : DeclaresNothing x where
  keeps m := .of_globals (h m)

theorem pure (a : α) : DeclaresNothing (pure a) :=
  of_globals fun _ => rfl

theorem fail (fault : ExecFault) : DeclaresNothing (fail fault : Exec α) :=
  of_globals fun _ => rfl

theorem orFail (fault : ExecFault) (x : Option α) : DeclaresNothing (orFail fault x) := by
  cases x <;> exact of_globals fun _ => rfl

theorem ofExcept (x : Except ExecFault α) : DeclaresNothing (ofExcept x) := by
  cases x <;> exact of_globals fun _ => rfl

theorem get : DeclaresNothing (get : Exec Machine) :=
  of_globals fun _ => rfl

theorem modify {g : Machine → Machine} (h : ∀ m, (g m).globals = m.globals) :
    DeclaresNothing (modify g : Exec Unit) :=
  of_globals h

theorem ofState {x : StateM Machine α} (h : ∀ m, (x m).2.globals = m.globals) :
    DeclaresNothing (ofState x) :=
  of_globals h

theorem bind {x : Exec α} {k : α → Exec β} (hx : DeclaresNothing x)
    (hk : ∀ a, DeclaresNothing (k a)) : DeclaresNothing (x >>= k) where
  keeps m := by
    have first := hx.keeps m
    rw [last] at first
    rw [last_bind]
    split
    case h_1 a m' run => exact .trans (by rwa [run] at first) ((hk a).keeps m')
    case h_2 run => rwa [run] at first

theorem map {x : Exec α} (g : α → β) (hx : DeclaresNothing x) : DeclaresNothing (g <$> x) := by
  rw [← bind_pure_comp]
  exact bind hx fun _ => pure _

theorem ite {x y : Exec α} {c : Prop} [Decidable c] (hx : DeclaresNothing x)
    (hy : DeclaresNothing y) : DeclaresNothing (if c then x else y) := by
  split
  · exact hx
  · exact hy

theorem allocMap (t : Table MapKey) : DeclaresNothing (Exec.ofState (Machine.allocMap t)) :=
  ofState fun _ => rfl

theorem truth (v : Value) : DeclaresNothing (truth v) :=
  orFail ..

theorem all {xs : List (Exec Value)} (h : ∀ x ∈ xs, DeclaresNothing x) :
    DeclaresNothing (all xs) := by
  induction xs with
  | nil => exact pure _
  | cons x rest ih =>
    obtain ⟨first, later⟩ := List.forall_mem_cons.1 h
    exact bind first fun _ => bind (ih later) fun _ => pure _

theorem item (container index : Value) : DeclaresNothing (item container index) := by
  unfold Exec.item
  split
  · exact bind (orFail ..) fun _ => orFail ..
  · exact bind (orFail ..) fun _ => bind get fun _ => pure _
  · exact pure _
  · exact fail _

theorem itemAndPresence (container index : Value) :
    DeclaresNothing (itemAndPresence container index) := by
  unfold Exec.itemAndPresence
  split
  · exact bind (orFail ..) fun _ => bind get fun _ => pure _
  · exact bind (item ..) fun _ => pure _

theorem recordProperty (address : Nat) (name : String) :
    DeclaresNothing (recordProperty address name) :=
  ite (bind get fun _ => pure _) (fail _)

theorem select (base : Value) (member : String) : DeclaresNothing (select base member) := by
  unfold Exec.select
  split
  · refine bind get fun m => ?_
    split
    · exact pure _
    · exact recordProperty ..
    · exact fail _
  · exact recordProperty ..
  · exact fail _
  · exact fail _

theorem length (v : Value) : DeclaresNothing (length v) := by
  unfold Exec.length
  split
  · exact pure _
  · exact pure _
  · exact bind get fun _ => pure _
  · exact pure _
  · exact fail _

theorem appendable (v : Value) : DeclaresNothing (appendable v) := by
  unfold Exec.appendable
  split
  · exact pure _
  · exact pure _
  · exact fail _

theorem oneResult (vs : List Value) : DeclaresNothing (oneResult vs) := by
  unfold Exec.oneResult
  split
  · exact pure _
  · exact fail _

theorem sliceLiteral {entries : List LiteralEntry} (h : ∀ e ∈ entries, DeclaresNothing e.value) :
    DeclaresNothing (sliceLiteral entries) :=
  bind (all (List.forall_mem_map.2 h)) fun _ => pure _

theorem mapEntries {entries : List LiteralEntry}
    (h : ∀ e ∈ entries, DeclaresNothing e.key ∧ DeclaresNothing e.value) (t : Table MapKey) :
    DeclaresNothing (mapEntries t entries) := by
  induction entries generalizing t with
  | nil => exact pure _
  | cons e rest ih =>
    obtain ⟨⟨key, value⟩, later⟩ := List.forall_mem_cons.1 h
    exact bind (orFail ..) fun _ => bind key fun _ => bind (orFail ..) fun _ =>
      bind value fun _ => ih later _

theorem structFields {entries : List LiteralEntry} (h : ∀ e ∈ entries, DeclaresNothing e.value)
    (t : Table String) : DeclaresNothing (structFields t entries) := by
  induction entries generalizing t with
  | nil => exact pure _
  | cons e rest ih =>
    obtain ⟨value, later⟩ := List.forall_mem_cons.1 h
    exact bind (orFail ..) fun _ => bind value fun _ => ih later _

theorem recordMethod (address : Nat) (name : String) (args : List Value) :
    DeclaresNothing (recordMethod address name args) := by
  unfold Exec.recordMethod
  split
  · exact bind (orFail ..) fun _ => bind (modify fun _ => rfl) fun _ => pure _
  · exact bind (orFail ..) fun _ => bind (modify fun _ => rfl) fun _ => pure _
  · exact bind (modify fun _ => rfl) fun _ => pure _
  · exact bind (of_globals fun _ => rfl) fun _ => pure _
  · exact bind (orFail ..) fun _ => bind get fun _ => bind (orFail ..) fun _ => pure _

end DeclaresNothing

end Exec

-- No call declares anything.
abbrev CallHandler.DeclaresNothing (call : CallHandler) : Prop :=
  ∀ g receiver args, (call g receiver args).DeclaresNothing

namespace Exec

variable {p : Program} {call : CallHandler} {f : Frame}

theorem binding_declaresNothing (name : String) : DeclaresNothing (binding? f name) :=
  .bind .get fun _ => .pure _

theorem callMethod_declaresNothing (quiet : call.DeclaresNothing) (receiver : Value)
    (name : String) (args : List Value) : DeclaresNothing (callMethod p call receiver name args) := by
  unfold callMethod
  split
  · refine .bind .get fun m => ?_
    split
    · exact quiet ..
    · exact .recordMethod ..
    · exact .fail _
  · exact .recordMethod ..
  · exact .fail _
  · exact .fail _

theorem callBuiltin_declaresNothing (b : Builtin) (written : List Expr) {args : List (Exec Value)}
    (h : ∀ x ∈ args, DeclaresNothing x) : DeclaresNothing (callBuiltin p b written args) := by
  unfold callBuiltin
  split
  · exact .bind (h _ (by simp)) fun _ => .length _
  · exact .bind (h _ (by simp)) fun _ => .fail _
  · exact .bind (h _ (by simp)) fun _ => .ofExcept _
  · exact .bind (h _ (by simp)) fun _ => .bind (.appendable _) fun _ =>
      .bind (.all fun x hx => h x (by simp [hx])) fun _ => .pure _
  · split
    · split
      · exact .bind (.pure _) fun _ => .pure _
      · refine .bind (h _ ?_) fun _ => .bind (.pure _) fun _ => .pure _
        exact List.mem_cons_of_mem _ (List.mem_cons_self ..)
    · exact .allocMap _
    · exact .fail _
  · exact .fail _

theorem callNamed_declaresNothing (quiet : call.DeclaresNothing) (name : String)
    (written : List Expr) {args : List (Exec Value)} (h : ∀ x ∈ args, DeclaresNothing x) :
    DeclaresNothing (callNamed p call f name written args) := by
  refine .bind (binding_declaresNothing name) fun found => ?_
  dsimp only
  split
  · exact .bind (callBuiltin_declaresNothing _ _ h) fun _ => .pure _
  · split
    · exact .bind (h _ (by simp)) fun _ => .bind (.ofExcept _) fun _ => .pure _
    · exact .fail _
    · exact .bind (.orFail ..) fun g => .bind (.all h) fun _ => quiet ..

theorem callResults_declaresNothing (quiet : call.DeclaresNothing) (callee : Expr)
    {receiver : Exec Value} (written : List Expr) {args : List (Exec Value)}
    (base : DeclaresNothing receiver) (h : ∀ x ∈ args, DeclaresNothing x) :
    DeclaresNothing (callResults p call f callee receiver written args) := by
  unfold callResults
  split
  · exact .bind base fun _ => .bind (.all h) fun _ => callMethod_declaresNothing quiet ..
  · exact callNamed_declaresNothing quiet _ _ h
  · exact .fail _

mutual

theorem eval_declaresNothing (quiet : call.DeclaresNothing) :
    ∀ e : Expr, DeclaresNothing (eval p call f e)
  | .ident _ name => by
    rw [eval]
    exact .bind (binding_declaresNothing name) fun _ => .orFail ..
  | .literal _ _ => by
    rw [eval]
    exact .pure _
  | .select _ base member => by
    rw [eval]
    exact .bind (eval_declaresNothing quiet base) fun _ => .select ..
  | .call _ callee _ args => by
    rw [eval]
    exact .bind (callResults_declaresNothing quiet callee args (receiver_declaresNothing quiet callee)
      (actions_declareNothing quiet args)) .oneResult
  | .index _ base i => by
    rw [eval]
    exact .bind (eval_declaresNothing quiet base) fun _ =>
      .bind (eval_declaresNothing quiet i) fun _ => .item ..
  | .binary _ op left right => by
    have left := eval_declaresNothing quiet left
    have right := eval_declaresNothing quiet right
    by_cases hand : op = .and
    · subst hand
      rw [eval]
      exact .bind left fun _ => .bind (.truth _) fun _ =>
        .ite (.bind right fun _ => .bind (.truth _) fun _ => .pure _) (.pure _)
    · by_cases hor : op = .or
      · subst hor
        rw [eval]
        exact .bind left fun _ => .bind (.truth _) fun _ =>
          .ite (.pure _) (.bind right fun _ => .bind (.truth _) fun _ => .pure _)
      · rw [eval]
        · exact .bind left fun _ => .bind right fun _ => .ofExcept _
        · exact hand
        · exact hor
  | .unary _ op operand => by
    rw [eval]
    exact .bind (eval_declaresNothing quiet operand) fun _ => .ofExcept _
  | .paren _ inner => by
    rw [eval]
    exact eval_declaresNothing quiet inner
  | .composite _ type elements => by
    have entries := entries_declareNothing quiet elements
    unfold eval
    split
    · exact .sliceLiteral fun e he => (entries e he).2
    · exact .bind (.mapEntries entries _) fun _ => .allocMap _
    · exact .bind (.structFields (fun e he => (entries e he).2) _) fun _ => .ofState fun _ => rfl
  | .typeOperand _ _ => by
    rw [eval]
    exact .fail _

theorem receiver_declaresNothing (quiet : call.DeclaresNothing) :
    ∀ e : Expr, DeclaresNothing (receiver p call f e)
  | .select _ base _ => by
    rw [receiver]
    exact eval_declaresNothing quiet base
  | .ident .. | .literal .. | .call .. | .index .. | .binary .. | .unary .. | .paren ..
  | .composite .. | .typeOperand .. => .fail _

theorem actions_declareNothing (quiet : call.DeclaresNothing) :
    ∀ es : List Expr, ∀ x ∈ actions p call f es, DeclaresNothing x
  | [] => nofun
  | e :: rest => by
    rw [actions]
    exact List.forall_mem_cons.2 ⟨eval_declaresNothing quiet e, actions_declareNothing quiet rest⟩

theorem entries_declareNothing (quiet : call.DeclaresNothing) : ∀ elements : List Element,
    ∀ e ∈ entries p call f elements, DeclaresNothing e.key ∧ DeclaresNothing e.value
  | [] => nofun
  | .positional value :: rest => by
    rw [entries]
    exact List.forall_mem_cons.2
      ⟨⟨.fail _, eval_declaresNothing quiet value⟩, entries_declareNothing quiet rest⟩
  | .keyed key value :: rest => by
    rw [entries]
    exact List.forall_mem_cons.2 ⟨⟨eval_declaresNothing quiet key, eval_declaresNothing quiet value⟩,
      entries_declareNothing quiet rest⟩

end

theorem evalAll_declaresNothing (quiet : call.DeclaresNothing) (e : Expr) :
    DeclaresNothing (evalAll p call f e) := by
  unfold evalAll
  split
  · exact callResults_declaresNothing quiet _ _ (receiver_declaresNothing quiet _)
      (actions_declareNothing quiet _)
  · exact .bind (eval_declaresNothing quiet _) fun _ =>
      .bind (eval_declaresNothing quiet _) fun _ => .itemAndPresence ..
  · exact .bind (eval_declaresNothing quiet _) fun _ => .pure _

theorem evalFor_declaresNothing (quiet : call.DeclaresNothing) (count : Nat) (es : List Expr) :
    DeclaresNothing (evalFor p call f count es) := by
  unfold evalFor
  split
  · exact .ite (.bind (evalAll_declaresNothing quiet _) fun _ => .ite (.pure _) (.fail _))
      (.bind (eval_declaresNothing quiet _) fun _ => .pure _)
  · exact .all (actions_declareNothing quiet _)

theorem check_declaresNothing (quiet : call.DeclaresNothing) (e : Expr) :
    DeclaresNothing (check p call f e) :=
  .bind (eval_declaresNothing quiet e) fun _ => .truth _

end Exec

namespace Step

variable {α β : Type}

-- A step declares nothing if it does not under any local variables.
structure DeclaresNothing (x : Step α) : Prop where
  under : ∀ f, Exec.DeclaresNothing (x f)

namespace DeclaresNothing

theorem pure (a : α) : DeclaresNothing (pure a) where
  under _ := .pure _

theorem lift {x : Exec α} (h : Exec.DeclaresNothing x) : DeclaresNothing (liftM x : Step α) where
  under _ := .bind h fun _ => .pure _

theorem fail (fault : ExecFault) : DeclaresNothing (liftM (Exec.fail fault : Exec α) : Step α) :=
  lift (.fail fault)

theorem modify (g : Frame → Frame) : DeclaresNothing (modify g : Step Unit) where
  under _ := .pure _

theorem reading {g : Frame → Exec α} (h : ∀ f, Exec.DeclaresNothing (g f)) :
    DeclaresNothing (reading g) where
  under f := .bind (h f) fun _ => .pure _

theorem bind {x : Step α} {k : α → Step β} (hx : DeclaresNothing x)
    (hk : ∀ a, DeclaresNothing (k a)) : DeclaresNothing (x >>= k) where
  under f := .bind (hx.under f) fun r => (hk r.1).under r.2

theorem ite {x y : Step α} {c : Prop} [Decidable c] (hx : DeclaresNothing x)
    (hy : DeclaresNothing y) : DeclaresNothing (if c then x else y) := by
  split
  · exact hx
  · exact hy

theorem inScope {x : Step α} (h : DeclaresNothing x) : DeclaresNothing (inScope x) :=
  bind (modify _) fun _ => bind h fun _ => bind (modify _) fun _ => pure _

theorem define (name : String) (v : Value) : DeclaresNothing (define name v) :=
  modify _

theorem defineAll (names : List String) (vs : List Value) : DeclaresNothing (defineAll names vs) := by
  induction names generalizing vs with
  | nil => exact pure _
  | cons name names ih =>
    cases vs with
    | nil => exact pure _
    | cons v vs => exact bind (define ..) fun _ => ih vs

theorem defineTargets (targets : List Expr) (vs : List Value) :
    DeclaresNothing (defineTargets targets vs) := by
  induction targets generalizing vs with
  | nil => exact pure _
  | cons target targets ih =>
    cases vs with
    | nil => exact pure _
    | cons v vs => exact bind (lift (.orFail ..)) fun _ => bind (define ..) fun _ => ih vs

theorem loop {cond : Step Bool} {body post : Step Flow} (hc : DeclaresNothing cond)
    (hb : DeclaresNothing body) (hp : DeclaresNothing post) (rounds : Nat) :
    DeclaresNothing (loop cond body post rounds) := by
  induction rounds with
  | zero => exact fail _
  | succ rounds ih =>
    refine bind hc fun holds => ite (bind hb fun flow => ?_) (pure _)
    cases flow with
    | breaks => exact pure _
    | returns vs => exact pure _
    | next => exact bind hp fun _ => ih
    | continues => exact bind hp fun _ => ih

theorem forEach {round : α → Step Flow} (h : ∀ a, DeclaresNothing (round a)) (as : List α) :
    DeclaresNothing (forEach round as) := by
  induction as with
  | nil => exact pure _
  | cons a rest ih =>
    refine bind (h a) fun flow => ?_
    cases flow with
    | breaks => exact pure _
    | returns vs => exact pure _
    | next => exact ih
    | continues => exact ih

theorem sequence {xs : List (Step Flow)} (h : ∀ x ∈ xs, DeclaresNothing x) :
    DeclaresNothing (sequence xs) := by
  induction xs with
  | nil => exact pure _
  | cons x rest ih =>
    obtain ⟨first, later⟩ := List.forall_mem_cons.1 h
    refine bind first fun flow => ?_
    cases flow with
    | next => exact ih later
    | breaks => exact pure _
    | continues => exact pure _
    | returns vs => exact pure _

end DeclaresNothing

theorem itemsOf_declaresNothing (v : Value) : Exec.DeclaresNothing (itemsOf v) := by
  unfold itemsOf
  split
  · exact .pure _
  · exact .bind .get fun _ => .pure _
  · exact .pure _
  · exact .pure _
  · exact .fail _

end Step

namespace Place

variable {α : Type} {p : Program} {call : CallHandler} {g : Access α}

theorem accessItem_declaresNothing (h : ∀ v, Exec.DeclaresNothing (g v)) (index container : Value) :
    Exec.DeclaresNothing (accessItem index g container) := by
  unfold accessItem
  split
  · refine .bind (.orFail ..) fun i => ?_
    split
    · exact .fail _
    · exact .bind (h _) fun _ => .pure _
  · exact .bind (.orFail ..) fun _ => .bind .get fun _ => .bind (h _) fun _ =>
      .bind (.modify fun _ => rfl) fun _ => .pure _
  · exact .fail _
  · exact .fail _

theorem accessField_declaresNothing (h : ∀ v, Exec.DeclaresNothing (g v)) (address : Nat)
    (member : String) : Exec.DeclaresNothing (accessField address member g) :=
  .bind .get fun _ => .bind (.modify fun _ => rfl) fun _ => .bind (h _) fun _ =>
    .bind (.modify fun _ => rfl) fun _ => .pure _

theorem accessName_package {f : Frame} {x : String} (free : f.get? x = none) :
    accessName x g f = get >>= fun m => Exec.orFail (.undefined x) (m.globals.get? x) >>= fun c =>
      g c >>= fun r => modify (·.setGlobal x r.2) >>= fun _ => pure (r.1, f) := by
  rw [accessName, Step.bind_run, show (get : Step Frame) f = pure (f, f) from rfl, pure_bind]
  dsimp only
  rw [free]
  simp only [Step.bind_run, Step.lift_run, bind_assoc, pure_bind]
  rfl

-- A package variable is set only where there is one.
theorem accessName_declaresNothing (h : ∀ v, Exec.DeclaresNothing (g v)) (name : String) :
    Step.DeclaresNothing (accessName name g) := by
  refine ⟨fun f => ?_⟩
  cases found : f.get? name with
  | some v =>
    rw [accessName_run found]
    exact .bind (h v) fun _ => .pure _
  | none =>
    refine ⟨fun m => ?_⟩
    rw [accessName_package found]
    cases bound : m.globals.get? name with
    | none =>
      rw [Exec.last, Exec.get_bind, bound]
      exact .refl m
    | some v =>
      rw [Exec.last, Exec.get_bind, bound, show Exec.orFail _ (some v) = pure v from rfl, pure_bind,
        ← Exec.last]
      have keeps := (h v).keeps m
      rw [Exec.last_bind]
      rw [Exec.last] at keeps
      split
      case h_1 r m' run =>
        rw [run] at keeps
        exact keeps.setGlobal (by simp [bound]) r.2
      case h_2 run => rwa [run] at keeps

theorem access_declaresNothing (place : Place) {g : Access α}
    (h : ∀ v, Exec.DeclaresNothing (g v)) : Step.DeclaresNothing (place.access g) := by
  induction place generalizing g with
  | blank => exact .bind (.lift (h _)) fun _ => .pure _
  | named name => exact accessName_declaresNothing h name
  | field address member => exact .lift (accessField_declaresNothing h address member)
  | item container index ih => exact ih (accessItem_declaresNothing h index)
  | temporary v => exact .bind (.lift (h _)) fun _ => .pure _

theorem read_declaresNothing (place : Place) : Step.DeclaresNothing place.read :=
  place.access_declaresNothing fun _ => .pure _

theorem write_declaresNothing (place : Place) (v : Value) : Step.DeclaresNothing (place.write v) :=
  place.access_declaresNothing fun _ => .pure _

theorem resolve_declaresNothing {f : Frame}
    (quiet : call.DeclaresNothing) : ∀ e : Expr, Exec.DeclaresNothing (resolve p call f e)
  | .ident _ name => .pure _
  | .paren _ inner => by
    rw [resolve]
    exact resolve_declaresNothing quiet inner
  | .select _ base member => by
    rw [resolve]
    refine .bind (Exec.eval_declaresNothing quiet base) fun v => ?_
    split
    · exact .pure _
    · exact .fail _
    · exact .fail _
  | .index _ base i => by
    rw [resolve]
    have index (container : Place) : Exec.DeclaresNothing (do
        return Place.item container (← Exec.eval p call f i)) :=
      .bind (Exec.eval_declaresNothing quiet i) fun _ => .pure _
    exact .ite (.bind (resolve_declaresNothing quiet base) index)
      (.bind (.map _ (Exec.eval_declaresNothing quiet base)) index)
  | .literal .. | .call .. | .binary .. | .unary .. | .composite .. | .typeOperand .. => .fail _

end Place

namespace Step

variable {p : Program} {call : CallHandler} {rounds : Nat}

theorem writeAll_declaresNothing (places : List Place) (vs : List Value) :
    DeclaresNothing (writeAll places vs) := by
  induction places generalizing vs with
  | nil => exact .pure _
  | cons place places ih =>
    cases vs with
    | nil => exact .pure _
    | cons v vs => exact .bind (place.write_declaresNothing v) fun _ => ih vs

section

variable (quiet : call.DeclaresNothing)

include quiet

theorem eval_declaresNothing (e : Expr) : DeclaresNothing (eval p call e) :=
  .reading fun _ => Exec.eval_declaresNothing quiet e

theorem evalFor_declaresNothing (count : Nat) (es : List Expr) :
    DeclaresNothing (evalFor p call count es) :=
  .reading fun _ => Exec.evalFor_declaresNothing quiet count es

theorem resolve_declaresNothing (e : Expr) : DeclaresNothing (resolve p call e) :=
  .reading fun _ => Place.resolve_declaresNothing quiet e

theorem resolveAll_declaresNothing (es : List Expr) : DeclaresNothing (resolveAll p call es) := by
  induction es with
  | nil => exact .pure _
  | cons e rest ih =>
    exact .bind (resolve_declaresNothing quiet e) fun _ => .bind ih fun _ => .pure _

theorem update_declaresNothing (op : BinaryOp) (target : Expr) {value : Step Value}
    (h : DeclaresNothing value) : DeclaresNothing (update p call op target value) :=
  .bind (resolve_declaresNothing quiet target) fun place =>
    .bind place.read_declaresNothing fun _ => .bind h fun _ => .bind (.lift (.ofExcept _)) fun v =>
      .bind (place.write_declaresNothing v) fun _ => .pure _

theorem assign_declaresNothing (targets : List Expr) (op : AssignOp) (values : List Expr) :
    DeclaresNothing (assign p call targets op values) := by
  unfold assign
  split
  · exact update_declaresNothing quiet _ _ (eval_declaresNothing quiet _)
  · exact .fail _
  · exact .fail _
  · exact .bind (evalFor_declaresNothing quiet _ _) fun _ =>
      .bind (.defineTargets ..) fun _ => .pure _
  · exact .bind (resolveAll_declaresNothing quiet _) fun _ =>
      .bind (evalFor_declaresNothing quiet _ _) fun _ =>
        .bind (writeAll_declaresNothing ..) fun _ => .pure _

theorem declare_declaresNothing (names : List String) (type : Option TypeExpr)
    (values : List Expr) : DeclaresNothing (declare p call names type values) :=
  .ite (.bind (.pure _) fun _ => .bind (.defineAll ..) fun _ => .pure _)
    (.bind (evalFor_declaresNothing quiet _ _) fun _ => .bind (.defineAll ..) fun _ => .pure _)

theorem bindItem_declaresNothing (define : Bool) (v : Value) (target : Option Expr) :
    DeclaresNothing (bindItem p call define v target) := by
  unfold bindItem
  split
  · exact .pure _
  · split
    · exact .define ..
    · exact .bind (resolve_declaresNothing quiet _) fun place => place.write_declaresNothing v

theorem matchesTag_declaresNothing (tag : Value) (es : List Expr) :
    DeclaresNothing (matchesTag p call tag es) := by
  induction es with
  | nil => exact .pure _
  | cons e rest ih =>
    exact .bind (eval_declaresNothing quiet e) fun _ => .ite (.pure _) ih

theorem chooseCase_declaresNothing (tag : Value) (cases : List Case) :
    DeclaresNothing (chooseCase p call tag cases) := by
  have go (rest : List Case) (position : Nat) :
      DeclaresNothing (chooseCase.go p call tag cases position rest) := by
    induction rest generalizing position with
    | nil => exact .pure _
    | cons c rest ih =>
      exact .bind (matchesTag_declaresNothing quiet tag c.values) fun _ => .ite (.pure _) (ih _)
  exact go cases 0

end

mutual

theorem exec_declaresNothing (quiet : call.DeclaresNothing) (s : Stmt) :
    DeclaresNothing (exec p call rounds s) := by
  cases s with
  | empty => exact .pure _
  | expr e => exact .bind (.reading fun _ => Exec.evalAll_declaresNothing quiet e) fun _ => .pure _
  | assign _ targets op values => exact assign_declaresNothing quiet targets op values
  | step _ target => exact update_declaresNothing quiet _ target (.pure _)
  | var _ names type values => exact declare_declaresNothing quiet names type values
  | block body => exact execBlock_declaresNothing quiet body
  | ifElse _ init cond body orElse =>
    refine .inScope (.bind (execOption_declaresNothing quiet init) fun _ => ?_)
    refine .bind (.reading fun _ => Exec.check_declaresNothing quiet cond) fun holds => ?_
    cases holds with
    | true => exact execBlock_declaresNothing quiet body
    | false => exact execOption_declaresNothing quiet orElse
  | forLoop _ init cond post body =>
    have body := execBlock_declaresNothing quiet body
    have post := execOption_declaresNothing quiet post
    refine .inScope (.bind (execOption_declaresNothing quiet init) fun _ => ?_)
    cases cond with
    | none => exact .loop (.pure _) body post rounds
    | some cond =>
      exact .loop (.reading fun _ => Exec.check_declaresNothing quiet cond) body post rounds
  | range _ key value define iterable body =>
    have body := execBlock_declaresNothing quiet body
    refine .bind (eval_declaresNothing quiet iterable) fun v =>
      .bind (.lift (itemsOf_declaresNothing v)) (.forEach fun item => ?_)
    exact .inScope (.bind (bindItem_declaresNothing quiet define item.1 key) fun _ =>
      .bind (bindItem_declaresNothing quiet define item.2 value) fun _ => body)
  | switch _ init tag cases =>
    have chosen (i : Option Nat) : DeclaresNothing (do
        match i.bind ((caseBodies p call rounds cases)[·]?) with
        | none => return .next
        | some body =>
          match ← body with
          | .breaks => return .next
          | flow => return flow) := by
      split
      · exact .pure _
      case h_2 body found =>
        obtain ⟨i, _, found⟩ := Option.bind_eq_some_iff.1 found
        refine .bind (caseBodies_declareNothing quiet cases body (List.mem_of_getElem? found)) ?_
        intro flow
        cases flow <;> exact .pure _
    have choose (tag : Value) := (chooseCase_declaresNothing (p := p) quiet tag cases).bind chosen
    refine .inScope (.bind (execOption_declaresNothing quiet init) fun _ => ?_)
    cases tag with
    | none => exact .bind (.pure _) choose
    | some tag => exact .bind (eval_declaresNothing quiet tag) choose
  | ret _ values =>
    rcases values with _ | ⟨e, _ | _⟩
    · exact .bind (.reading fun _ => .all (Exec.actions_declareNothing quiet _)) fun _ => .pure _
    · exact .bind (.reading fun _ => Exec.evalAll_declaresNothing quiet e) fun _ => .pure _
    · exact .bind (.reading fun _ => .all (Exec.actions_declareNothing quiet _)) fun _ => .pure _
  | breakLoop => exact .pure _
  | continueLoop => exact .pure _

theorem execOption_declaresNothing (quiet : call.DeclaresNothing) (s : Option Stmt) :
    DeclaresNothing (execOption p call rounds s) := by
  cases s with
  | none => exact .pure _
  | some s => exact exec_declaresNothing quiet s

theorem execBlock_declaresNothing (quiet : call.DeclaresNothing) (b : Block) :
    DeclaresNothing (execBlock p call rounds b) := by
  obtain ⟨_, statements⟩ := b
  exact .inScope (.sequence (steps_declareNothing quiet statements))

theorem steps_declareNothing (quiet : call.DeclaresNothing) (ss : List Stmt) :
    ∀ x ∈ steps p call rounds ss, DeclaresNothing x := by
  cases ss with
  | nil => exact List.forall_mem_nil _
  | cons s rest =>
    exact List.forall_mem_cons.2 ⟨exec_declaresNothing quiet s, steps_declareNothing quiet rest⟩

theorem caseBodies_declareNothing (quiet : call.DeclaresNothing) (cs : List Case) :
    ∀ x ∈ caseBodies p call rounds cs, DeclaresNothing x := by
  cases cs with
  | nil => exact List.forall_mem_nil _
  | cons c rest =>
    obtain ⟨_, _, body⟩ := c
    exact List.forall_mem_cons.2
      ⟨.inScope (.sequence (steps_declareNothing quiet body)), caseBodies_declareNothing quiet rest⟩

end

end Step

-- Whatever is called, and however deep, no package variable is declared.
theorem Program.invoke_declaresNothing (p : Program) (rounds depth : Nat) :
    (p.invoke rounds depth).DeclaresNothing := by
  induction depth with
  | zero =>
    intro g receiver args
    rw [invoke]
    exact .ite (.fail _) (.fail _)
  | succ depth ih =>
    intro g receiver args
    rw [invoke]
    refine .ite (.fail _) (.bind ((Step.DeclaresNothing.sequence
      (Step.steps_declareNothing ih g.body.statements)).under _) fun r => ?_)
    split
    · exact .pure _
    · exact .pure _

end FieldAccess
