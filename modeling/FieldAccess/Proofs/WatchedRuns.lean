import FieldAccess.Proofs.Runs
import FieldAccess.Proofs.Success

namespace FieldAccess

namespace Step

variable {α : Type}

-- Stops where the machine is not as it should be.
def watch (holds : Machine → Bool) : Step Unit := do
  if holds (← getThe Machine) then return ()
  else Exec.fail (.panicked .nil)

section

variable (p : Program) (call : CallHandler) (rounds : Nat) (holds : Machine → Bool)

mutual

-- Executes a statement and looks at the machine after each simple statement in it.
def watched : Stmt → Step Flow
  | .block body => watchedBlock body
  | .ifElse _ init cond body orElse => inScope do
    let _ ← watchedOption init
    if ← reading (Exec.check p call · cond) then watchedBlock body else watchedOption orElse
  | .forLoop _ init cond post body => inScope do
    let _ ← watchedOption init
    let check : Step Bool :=
      match cond with
      | none => pure true
      | some cond => reading (Exec.check p call · cond)
    loop check (watchedBlock body) (watchedOption post) rounds
  | .range _ key value define iterable body => do
    let items ← itemsOf (← eval p call iterable)
    let round : Value × Value → Step Flow := fun item => inScope do
      bindItem p call define item.1 key
      watch holds
      bindItem p call define item.2 value
      watch holds
      watchedBlock body
    forEach round items
  | .switch _ init tag cases => inScope do
    let _ ← watchedOption init
    let tag ← match tag with
      | none => pure (.bool true)
      | some tag => eval p call tag
    match (← chooseCase p call tag cases).bind ((watchedBodies cases)[·]?) with
    | none => return .next
    | some body =>
      match ← body with
      | .breaks => return .next
      | flow => return flow
  | s => do
    let flow ← exec p call rounds s
    watch holds
    return flow

def watchedOption : Option Stmt → Step Flow
  | none => return .next
  | some s => watched s

def watchedBlock : Block → Step Flow
  | .mk _ statements => inScope (sequence (watchedSteps statements))

def watchedSteps : List Stmt → List (Step Flow)
  | [] => []
  | s :: rest => watched s :: watchedSteps rest

def watchedBodies : List Case → List (Step Flow)
  | [] => []
  | .mk _ _ body :: rest => inScope (sequence (watchedSteps body)) :: watchedBodies rest

end

end

theorem ok_watch {holds : Machine → Bool} {f f₁ : Frame} {m m₁ : Machine} {u : Unit} :
    watch holds f m = .ok (u, f₁) m₁ ↔ holds m = true ∧ f = f₁ ∧ m = m₁ := by
  simp only [watch, ok_bind, ok_getThe]
  constructor
  · rintro ⟨_, _, _, ⟨rfl, rfl, rfl⟩, run⟩
    split at run
    case isTrue h => exact ⟨h, (ok_pure.1 run).2⟩
    case isFalse => exact (Exec.ok_fail.1 (ok_lift.1 run).1).elim
  · rintro ⟨h, rfl, rfl⟩
    exact ⟨_, _, _, ⟨rfl, rfl, rfl⟩, by rw [if_pos h]; rfl⟩

-- A step that does what another does, but may stop on the way.
structure MayStop (x x' : Step α) : Prop where
  run : ∀ {f m r m₁}, x' f m = .ok r m₁ → x f m = .ok r m₁

namespace MayStop

variable {β : Type} {x x' : Step α}

theorem refl (x : Step α) : MayStop x x where
  run h := h

theorem bind {k k' : α → Step β} (hx : MayStop x x') (hk : ∀ a, MayStop (k a) (k' a)) :
    MayStop (x >>= k) (x' >>= k') where
  run {_ _ r _} h := by
    obtain ⟨b, f₂⟩ := r
    obtain ⟨a, f₁, m₁, run, run'⟩ := ok_bind.1 h
    exact ok_bind.2 ⟨a, f₁, m₁, hx.run run, (hk a).run run'⟩

-- A look at the machine is all that is done besides.
theorem watch {holds : Machine → Bool} {k k' : Step β} (hk : MayStop k k') :
    MayStop k (do Step.watch holds; k') where
  run {_ _ r _} h := by
    obtain ⟨b, f₂⟩ := r
    obtain ⟨_, _, _, looked, run⟩ := ok_bind.1 h
    obtain ⟨_, rfl, rfl⟩ := ok_watch.1 looked
    exact hk.run run

theorem watched {holds : Machine → Bool} (x : Step α) :
    MayStop x (do let a ← x; Step.watch holds; return a) where
  run {_ _ r _} h := by
    obtain ⟨b, f₂⟩ := r
    obtain ⟨a, f₁, m₁, run, run'⟩ := ok_bind.1 h
    obtain ⟨rfl, rfl, rfl⟩ := ok_pure.1 ((watch (.refl (Pure.pure a))).run run')
    exact run

theorem inScope (h : MayStop x x') : MayStop (inScope x) (inScope x') :=
  .bind (.refl _) fun _ => .bind h fun _ => .refl _

theorem loop (cond : Step Bool) {body body' post post' : Step Flow} (hbody : MayStop body body')
    (hpost : MayStop post post') (rounds : Nat) :
    MayStop (loop cond body post rounds) (loop cond body' post' rounds) := by
  induction rounds with
  | zero => exact .refl _
  | succ rounds ih =>
    refine .bind (.refl _) fun go => ?_
    cases go with
    | false => exact .refl _
    | true =>
      refine .bind hbody fun flow => ?_
      cases flow with
      | breaks => exact .refl _
      | returns => exact .refl _
      | next => exact .bind hpost fun _ => ih
      | continues => exact .bind hpost fun _ => ih

theorem forEach {round round' : α → Step Flow} (h : ∀ a, MayStop (round a) (round' a))
    (as : List α) : MayStop (forEach round as) (forEach round' as) := by
  induction as with
  | nil => exact .refl _
  | cons a rest ih =>
    refine .bind (h a) fun flow => ?_
    cases flow with
    | breaks => exact .refl _
    | returns => exact .refl _
    | next => exact ih
    | continues => exact ih

theorem sequence {xs xs' : List (Step Flow)} (h : List.Forall₂ MayStop xs xs') :
    MayStop (sequence xs) (sequence xs') := by
  induction h with
  | nil => exact .refl _
  | cons head _ ih =>
    refine .bind head fun flow => ?_
    cases flow with
    | next => exact ih
    | breaks | continues | returns => exact .refl _

-- The body of the chosen case.
theorem chosen {bodies bodies' : List (Step Flow)} (h : List.Forall₂ MayStop bodies bodies')
    (position : Option Nat) :
    MayStop
      (match position.bind (bodies[·]?) with
      | none => return .next
      | some body => do
        match ← body with
        | .breaks => return .next
        | flow => return flow)
      (match position.bind (bodies'[·]?) with
      | none => return .next
      | some body => do
        match ← body with
        | .breaks => return .next
        | flow => return flow) := by
  have body : Option.Rel MayStop (position.bind (bodies[·]?)) (position.bind (bodies'[·]?)) := by
    cases position with
    | none => exact .none
    | some position => exact forall₂_getElem? h position
  revert body
  generalize position.bind (bodies[·]?) = body, position.bind (bodies'[·]?) = body'
  intro body
  cases body with
  | none => exact .refl _
  | some body => exact .bind body fun _ => .refl _

end MayStop

section

variable (p : Program) (call : CallHandler) (rounds : Nat) (holds : Machine → Bool)

mutual

-- What a watched run gives is what the run gives.
theorem watched_mayStop : ∀ s : Stmt,
    MayStop (exec p call rounds s) (watched p call rounds holds s)
  | .block body => watchedBlock_mayStop body
  | .ifElse _ init cond body orElse => by
    rw [exec, watched]
    refine .inScope (.bind (watchedOption_mayStop init) fun _ => .bind (.refl _) fun go => ?_)
    cases go with
    | true => exact watchedBlock_mayStop body
    | false => exact watchedOption_mayStop orElse
  | .forLoop _ init cond post body => by
    unfold exec watched
    refine .inScope (.bind (watchedOption_mayStop init) fun _ => ?_)
    exact .loop _ (watchedBlock_mayStop body) (watchedOption_mayStop post) rounds
  | .range _ key value define iterable body => by
    rw [exec, watched]
    refine .bind (.refl _) fun v => .bind (.refl _) fun items => .forEach (fun item => .inScope ?_)
      items
    exact .bind (.refl _) fun _ => .watch (.bind (.refl _) fun _ => .watch (watchedBlock_mayStop body))
  | .switch _ init tag cases => by
    rw [exec, watched]
    refine .inScope (.bind (watchedOption_mayStop init) fun _ => ?_)
    cases tag with
    | none => exact .bind (.refl _) fun _ => .bind (.refl _) (.chosen (watchedBodies_mayStop cases))
    | some tag => exact .bind (.refl _) fun _ => .bind (.refl _) (.chosen (watchedBodies_mayStop cases))
  | .empty _ | .expr _ | .assign _ _ _ _ | .step _ _ _ | .var _ _ _ _ | .ret _ _ | .breakLoop _
  | .continueLoop _ => by
    rw [watched]
    · exact .watched _
    all_goals simp

theorem watchedOption_mayStop : ∀ s : Option Stmt,
    MayStop (execOption p call rounds s) (watchedOption p call rounds holds s)
  | none => .refl _
  | some s => watched_mayStop s

theorem watchedBlock_mayStop : ∀ b : Block,
    MayStop (execBlock p call rounds b) (watchedBlock p call rounds holds b)
  | .mk _ statements => .inScope (.sequence (watchedSteps_mayStop statements))

theorem watchedSteps_mayStop : ∀ ss : List Stmt,
    List.Forall₂ MayStop (steps p call rounds ss) (watchedSteps p call rounds holds ss)
  | [] => .nil
  | s :: rest => .cons (watched_mayStop s) (watchedSteps_mayStop rest)

theorem watchedBodies_mayStop : ∀ cases : List Case,
    List.Forall₂ MayStop (caseBodies p call rounds cases) (watchedBodies p call rounds holds cases)
  | [] => .nil
  | .mk _ _ body :: rest =>
    .cons (.inScope (.sequence (watchedSteps_mayStop body))) (watchedBodies_mayStop rest)

end

end

end Step

end FieldAccess
