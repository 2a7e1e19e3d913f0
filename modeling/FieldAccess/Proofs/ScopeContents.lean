import FieldAccess.Proofs.PlaceContents
import FieldAccess.Proofs.SettledBodies

namespace FieldAccess

-- The variables that a statement declares in the scope that it stands in. Those of a loop over
-- items belong to its rounds.
def Stmt.declared (s : Stmt) : List String :=
  if s.isRange then [] else s.boundNames

namespace Frame

-- Whether the scope with some number of scopes in it holds a variable.
def holds (f : Frame) (depth : Nat) (x : String) : Bool :=
  (f.scopes[depth]?).any (·.contains x)

section

variable (f : Frame) (depth : Nat) (x y : String) (v : Value)

@[simp]
theorem holds_push_zero : f.push.holds 0 x = false := rfl

@[simp]
theorem holds_push_succ : f.push.holds (depth + 1) x = f.holds depth x := rfl

@[simp]
theorem holds_pop : f.pop.holds depth x = f.holds (depth + 1) x := by
  simp [holds, pop, List.getElem?_tail]

theorem contains_insert (s : Table String) :
    (s.insert x v).contains y = (s.contains y || decide (y = x)) := by
  rw [Table.contains, Table.contains, Table.get?_insert]
  split <;> simp_all [eq_comm]

@[simp]
theorem holds_assign : (f.assign x v).holds depth y = f.holds depth y := by
  obtain ⟨scopes⟩ := f
  simp only [holds, assign]
  induction scopes generalizing depth with
  | nil => rfl
  | cons s rest ih =>
    rw [assignIn]
    split
    case isTrue has =>
      cases depth with
      | zero =>
        have : y = x → s.contains y = true := fun e => e ▸ has
        simp only [List.getElem?_cons_zero, Option.any_some, contains_insert]
        grind
      | succ => rfl
    case isFalse =>
      cases depth with
      | zero => rfl
      | succ depth => exact ih depth

variable {depth x y}

theorem holds_define (other : depth ≠ 0 ∨ y ≠ x) : (f.define x v).holds depth y = f.holds depth y := by
  obtain ⟨scopes⟩ := f
  rw [define]
  split
  · rfl
  · cases scopes with
    | nil => rfl
    | cons s rest =>
      cases depth with
      | zero =>
        simp only [holds, List.getElem?_cons_zero, Option.any_some, contains_insert]
        simp_all
      | succ => rfl

-- What the innermost scope does not hold is the same in the scopes around it.
theorem get?_pop {f : Frame} (outside : f.holds 0 x = false) : f.pop.get? x = f.get? x := by
  obtain ⟨scopes⟩ := f
  cases scopes with
  | nil => rfl
  | cons s rest =>
    have absent : s.get? x = none := by simpa [holds, Table.contains] using outside
    rw [get?, get?, pop, List.findSome?_cons, absent]
    rfl

end

-- A frame and a later one: the innermost scope may have gained some variables, no other has.
structure Gains (names : List String) (f f₁ : Frame) : Prop where
  holds : ∀ {depth x}, depth ≠ 0 ∨ x ∉ names → f₁.holds depth x = f.holds depth x

namespace Gains

variable {names names' : List String} {f f₁ f₂ : Frame}

theorem refl (names : List String) (f : Frame) : Gains names f f :=
  ⟨fun _ => rfl⟩

theorem trans (h : Gains names f f₁) (h' : Gains names f₁ f₂) : Gains names f f₂ :=
  ⟨fun other => (h'.holds other).trans (h.holds other)⟩

theorem mono (h : Gains names f f₁) (sub : names ⊆ names') : Gains names' f f₁ :=
  ⟨fun other => h.holds (other.imp_right fun new mem => new (sub mem))⟩

theorem assign (names : List String) (f : Frame) (x : String) (v : Value) :
    Gains names f (f.assign x v) :=
  ⟨fun _ => f.holds_assign ..⟩

theorem define (f : Frame) (x : String) (v : Value) : Gains [x] f (f.define x v) :=
  ⟨fun other => f.holds_define v (other.imp_right fun new e => new (e ▸ List.mem_singleton_self _))⟩

-- What the innermost scope gained is gone with it.
theorem pop (h : Gains names f.push f₁) : Gains [] f f₁.pop :=
  ⟨fun _ => by rw [holds_pop, h.holds (.inl (Nat.succ_ne_zero _)), holds_push_succ]⟩

theorem get?_pop (h : Gains names f.push f₁) {x : String} (new : x ∉ names) :
    f₁.pop.get? x = f₁.get? x :=
  Frame.get?_pop ((h.holds (.inr new)).trans (f.holds_push_zero x))

end Gains

end Frame

namespace Step

variable {α β : Type}

-- A step gives the innermost scope some variables, at most.
structure Gains (names : List String) (x : Step α) : Prop where
  run : ∀ {f m a f₁ m₁}, x f m = .ok (a, f₁) m₁ → f.Gains names f₁

namespace Gains

variable {names names' : List String} {x : Step α}

theorem mono (h : Gains names x) (sub : names ⊆ names') : Gains names' x :=
  ⟨fun run => (h.run run).mono sub⟩

theorem pure (a : α) : Gains names (pure a) where
  run run := by
    obtain ⟨-, rfl, -⟩ := ok_pure.1 run
    exact .refl ..

theorem lift (x : Exec α) : Gains names (liftM x) where
  run run := by
    obtain ⟨-, rfl⟩ := ok_lift.1 run
    exact .refl ..

theorem reading (x : Frame → Exec α) : Gains names (reading x) where
  run run := by
    obtain ⟨-, rfl⟩ := ok_reading.1 run
    exact .refl ..

theorem bind {k : α → Step β} (h : Gains names x) (hk : ∀ a, Gains names (k a)) :
    Gains names (x >>= k) where
  run run := by
    obtain ⟨a, _, _, first, second⟩ := ok_bind.1 run
    exact (h.run first).trans ((hk a).run second)

-- One step after the other.
theorem andThen {k : α → Step β} (h : Gains names x) (hk : ∀ a, Gains names' (k a)) :
    Gains (names ++ names') (x >>= k) :=
  .bind (h.mono (List.subset_append_left ..)) fun a => (hk a).mono (List.subset_append_right ..)

theorem inScope (h : Gains names x) : Gains [] (inScope x) where
  run run := by
    obtain ⟨_, inner, rfl⟩ := ok_inScope.1 run
    exact (h.run inner).pop

theorem define (x : String) (v : Value) : Gains [x] (define x v) where
  run run := by
    obtain ⟨rfl, -⟩ := ok_modify.1 run
    exact .define ..

theorem access (g : Place.Access α) (place : Place) : Gains names (place.access g) := by
  induction place generalizing α with
  | blank => exact .bind (.lift _) fun _ => .pure _
  | temporary => exact .bind (.lift _) fun _ => .pure _
  | field => exact .lift _
  | item _ _ ih => exact ih _
  | named x =>
    refine ⟨fun run => ?_⟩
    rcases Place.ok_access_named.1 run with ⟨_, _, _, _, rfl⟩ | ⟨_, _, _, _, _, _, _, rfl⟩
    · exact .assign ..
    · exact .refl ..

theorem defineAll (names : List String) (vs : List Value) : Gains names (defineAll names vs) := by
  induction names generalizing vs with
  | nil => exact .pure ()
  | cons x names ih =>
    cases vs with
    | nil => exact .pure ()
    | cons v vs =>
      exact .bind ((define x v).mono (List.cons_subset_cons x (List.nil_subset _))) fun _ =>
        (ih vs).mono (List.subset_cons_self ..)

theorem defineTargets (targets : List Expr) (vs : List Value) :
    Gains (targets.filterMap (·.ident?)) (defineTargets targets vs) := by
  induction targets generalizing vs with
  | nil => exact .pure ()
  | cons target targets ih =>
    cases vs with
    | nil => exact .pure ()
    | cons v vs =>
      rw [Step.defineTargets]
      cases named : target.ident? with
      | none =>
        refine ⟨fun run => ?_⟩
        obtain ⟨_, _, _, found, -⟩ := ok_bind.1 run
        exact (Exec.ok_throw.1 (ok_lift.1 found).1).elim
      | some x =>
        rw [List.filterMap_cons_some named]
        refine ⟨fun run => ?_⟩
        obtain ⟨_, _, _, found, defining⟩ := ok_bind.1 run
        obtain ⟨is, rfl⟩ := ok_lift.1 found
        obtain ⟨rfl, rfl⟩ := Exec.ok_pure.1 is
        obtain ⟨_, _, _, first, later⟩ := ok_bind.1 defining
        exact (((define x v).run first).mono (List.cons_subset_cons x (List.nil_subset _))).trans
          (((ih vs).run later).mono (List.subset_cons_self ..))

theorem writeAll (places : List Place) (vs : List Value) : Gains names (writeAll places vs) := by
  induction places generalizing vs with
  | nil => exact .pure ()
  | cons place places ih =>
    cases vs with
    | nil => exact .pure ()
    | cons v vs => exact .bind (.access ..) fun _ => ih vs

theorem loop {cond : Step Bool} {body post : Step Flow} (hcond : Gains names cond)
    (hbody : Gains names body) (hpost : Gains names post) (rounds : Nat) :
    Gains names (loop cond body post rounds) := by
  induction rounds with
  | zero => exact .lift _
  | succ rounds ih =>
    refine .bind hcond fun go => ?_
    cases go with
    | false => exact .pure _
    | true =>
      refine .bind hbody fun flow => ?_
      cases flow with
      | breaks => exact .pure _
      | returns => exact .pure _
      | next => exact .bind hpost fun _ => ih
      | continues => exact .bind hpost fun _ => ih

theorem forEach {round : α → Step Flow} (h : ∀ a, Gains names (round a)) (as : List α) :
    Gains names (forEach round as) := by
  induction as with
  | nil => exact .pure _
  | cons a rest ih =>
    refine .bind (h a) fun flow => ?_
    cases flow with
    | breaks => exact .pure _
    | returns => exact .pure _
    | next => exact ih
    | continues => exact ih

-- Of what is declared, all that comes before an early end is there at most.
theorem sequence {xs : List (Step Flow)} (h : ∀ x ∈ xs, Gains names x) :
    Gains names (sequence xs) := by
  induction xs with
  | nil => exact .pure _
  | cons x rest ih =>
    obtain ⟨first, later⟩ := List.forall_mem_cons.1 h
    refine .bind first fun flow => ?_
    cases flow with
    | next => exact ih later
    | breaks | continues | returns => exact .pure _

section

variable (p : Program) (call : CallHandler)

theorem resolveAll (es : List Expr) : Gains names (resolveAll p call es) := by
  induction es with
  | nil => exact .pure _
  | cons e es ih => exact .bind (.reading _) fun _ => .bind ih fun _ => .pure _

theorem update (op : BinaryOp) (target : Expr) {value : Step Value} (h : Gains names value) :
    Gains names (update p call op target value) :=
  .bind (.reading _) fun _ => .bind (.access ..) fun _ => .bind h fun _ => .bind (.lift _) fun _ =>
    .bind (.access ..) fun _ => .pure _

theorem assign (span : Span) (targets : List Expr) (op : AssignOp) (values : List Expr) :
    Gains (Stmt.assign span targets op values).declared (assign p call targets op values) := by
  cases op with
  | define =>
    exact .bind (.reading _) fun vs => .bind (.defineTargets targets vs) fun _ => .pure _
  | assign =>
    exact .bind (.resolveAll ..) fun _ => .bind (.reading _) fun _ => .bind (.writeAll ..) fun _ =>
      .pure _
  | compound op =>
    rcases targets with _ | ⟨target, _ | _⟩ <;> rcases values with _ | ⟨value, _ | _⟩
    case cons.nil.cons.nil => exact .update p call op target (.reading _)
    all_goals exact .lift _

theorem declare (names : List String) (type : Option TypeExpr) (values : List Expr) :
    Gains names (declare p call names type values) := by
  unfold Step.declare
  split
  · exact .bind (.pure _) fun vs => .bind (.defineAll names vs) fun _ => .pure _
  · exact .bind (.reading _) fun vs => .bind (.defineAll names vs) fun _ => .pure _

theorem bindItem (define : Bool) (v : Value) (target : Option Expr) :
    Gains (target.bind (·.ident?)).toList (bindItem p call define v target) := by
  cases target with
  | none => exact .pure ()
  | some target =>
    have written : Gains (target.ident?).toList (do (← resolve p call target).write v : Step Unit) :=
      .bind (.reading _) fun _ => .access ..
    cases define with
    | false => exact written
    | true =>
      cases named : target.ident? with
      | none =>
        rw [named] at written
        simpa only [Step.bindItem, Option.bind_some, named] using written
      | some x =>
        simp only [Step.bindItem, Option.bind_some, named]
        exact .define x v

theorem matchesTag (tag : Value) (es : List Expr) : Gains names (matchesTag p call tag es) := by
  induction es with
  | nil => exact .pure _
  | cons e es ih =>
    refine .bind (.reading _) fun v => ?_
    split
    · exact .pure _
    · exact ih

theorem chooseCase (tag : Value) (cases : List Case) : Gains names (chooseCase p call tag cases) := by
  suffices go : ∀ (rest : List Case) (position : Nat),
      Gains names (chooseCase.go p call tag cases position rest) from go cases 0
  intro rest
  induction rest with
  | nil => exact fun _ => .pure _
  | cons c rest ih =>
    refine fun position => .bind (.matchesTag ..) fun matched => ?_
    split
    · exact .pure _
    · exact ih (position + 1)

end

end Gains

section

variable (p : Program) (call : CallHandler) (rounds : Nat)

mutual

theorem exec_gains (s : Stmt) : Gains s.declared (exec p call rounds s) := by
  cases s with
  | empty => exact .pure _
  | expr => exact .bind (.reading _) fun _ => .pure _
  | assign => exact .assign ..
  | step => exact .update _ _ _ _ (.pure _)
  | var => exact .declare ..
  | block body => exact execBlock_gains body
  | ifElse _ init cond body orElse =>
    have chosen (holds : Bool) : Gains (orElse.elim [] (·.declared)) (if holds then
        execBlock p call rounds body else execOption p call rounds orElse) := by
      cases holds with
      | true => exact (execBlock_gains body).mono (List.nil_subset _)
      | false => exact execOption_gains orElse
    exact .inScope (.andThen (execOption_gains init) fun _ => .bind (.reading _) chosen)
  | forLoop _ init cond post body =>
    have check : Gains (post.elim [] (·.declared)) (match cond with
        | none => pure true
        | some cond => reading (Exec.check p call · cond) : Step Bool) := by
      cases cond with
      | none => exact .pure true
      | some cond => exact .reading _
    unfold exec
    exact .inScope (.andThen (execOption_gains init) fun _ =>
      .loop check ((execBlock_gains body).mono (List.nil_subset _)) (execOption_gains post) rounds)
  | range _ key value define iterable body =>
    rw [exec]
    refine .bind (.reading _) fun v => .bind (.lift _) fun items => .forEach (fun item => ?_) items
    exact .inScope (.andThen (.bindItem p call define item.1 key) fun _ =>
      .andThen (.bindItem p call define item.2 value) fun _ => execBlock_gains body)
  | switch _ init tag cases =>
    have chosen (position : Option Nat) : Gains [] (do
        match position.bind ((caseBodies p call rounds cases)[·]?) with
        | none => return .next
        | some body =>
          match ← body with
          | .breaks => return .next
          | flow => return flow) := by
      split
      · exact .pure _
      case h_2 body found =>
        obtain ⟨i, _, at_⟩ := Option.bind_eq_some_iff.1 found
        refine .bind (caseBodies_gain cases body (List.mem_of_getElem? at_)) fun flow => ?_
        cases flow <;> exact .pure _
    cases tag with
    | none =>
      exact .inScope (.andThen (execOption_gains init) fun _ => .bind (.pure _) fun _ =>
        .bind (.chooseCase ..) chosen)
    | some tag =>
      exact .inScope (.andThen (execOption_gains init) fun _ => .bind (.reading _) fun _ =>
        .bind (.chooseCase ..) chosen)
  | ret _ values =>
    rcases values with _ | ⟨e, _ | _⟩
    all_goals exact .bind (.reading _) fun _ => .pure _
  | breakLoop => exact .pure _
  | continueLoop => exact .pure _

theorem execOption_gains (s : Option Stmt) :
    Gains (s.elim [] (·.declared)) (execOption p call rounds s) := by
  cases s with
  | none => exact .pure _
  | some s => exact exec_gains s

theorem execBlock_gains (b : Block) : Gains [] (execBlock p call rounds b) := by
  obtain ⟨_, statements⟩ := b
  exact .inScope (.sequence (steps_gain statements))

theorem steps_gain (statements : List Stmt) :
    ∀ x ∈ steps p call rounds statements, Gains (statements.flatMap (·.declared)) x := by
  cases statements with
  | nil => exact List.forall_mem_nil _
  | cons s rest =>
    exact List.forall_mem_cons.2 ⟨(exec_gains s).mono (List.subset_append_left ..),
      fun x hx => (steps_gain rest x hx).mono (List.subset_append_right ..)⟩

theorem caseBodies_gain (cases : List Case) :
    ∀ x ∈ caseBodies p call rounds cases, Gains [] x := by
  cases cases with
  | nil => exact List.forall_mem_nil _
  | cons c rest =>
    obtain ⟨_, _, body⟩ := c
    exact List.forall_mem_cons.2 ⟨.inScope (.sequence (steps_gain body)), caseBodies_gain rest⟩

end

end

end Step

end FieldAccess
