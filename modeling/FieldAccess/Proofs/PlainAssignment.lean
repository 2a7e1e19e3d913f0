import FieldAccess.Proofs.States
import FieldAccess.Proofs.PlaceSimulation

namespace FieldAccess

-- Agreement does not depend on how far the machine has grown.
theorem Usage.Agrees.grow {u : Usage} {r : RedirectContext} {c : TypeContext} {S : Sides}
    {N : List String} {f f' : Frame} {m m₁ : Machine} (h : u.Agrees r c (S.view N f f' m))
    (grows : m.Grows m₁) : u.Agrees r c (S.view N f f' m₁) where
  receiver := h.receiver
  strays := h.strays
  field hf := by
    obtain ⟨type, entity, info, k, known, stores, resolves, typed⟩ := h.field hf
    refine ⟨type, entity, info, k, known, stores, resolves, fun t seen var => typed t seen ?_⟩
    exact (grows.var? f _).symm.trans var

theorem Sides.InKind.of_objects {S : Sides} {m m₁ : Machine} (h : S.InKind m)
    (same : m₁.objects = m.objects) : S.InKind m₁ := by
  intro t ht name info k stores
  simpa [Machine.object, same] using h t ht stores

theorem Frame.length_define (f : Frame) (x : String) (v : Value) :
    (f.define x v).scopes.length = f.scopes.length := by
  rw [Frame.define]
  split
  · rfl
  · cases h : f.scopes with
    | nil => rw [h]
    | cons scope rest => rfl

namespace Place

variable {p : Program} {call : CallHandler} {f f₁ : Frame} {m m₁ : Machine}

-- The places of targets, one after the other.
def resolveEach (p : Program) (call : CallHandler) (f : Frame) : List Expr → Exec (List Place)
  | [] => return []
  | e :: rest => do
    let place ← resolve p call f e
    return place :: (← resolveEach p call f rest)

theorem ok_resolveAll {es : List Expr} {places : List Place} :
    Step.resolveAll p call es f m = .ok (places, f₁) m₁ ↔
      resolveEach p call f es m = .ok places m₁ ∧ f = f₁ := by
  induction es generalizing m places f₁ with
  | nil => simp [Step.resolveAll, resolveEach, Step.ok_pure, Exec.ok_pure]; grind
  | cons e es ih =>
    simp only [Step.resolveAll, resolveEach, Step.resolve, Step.ok_bind, Exec.ok_bind, Step.ok_pure,
      Exec.ok_pure, Step.ok_reading]
    grind

theorem resolveEach_onlyAllocates {es : List Expr} (h : ∀ e ∈ es, e.isCallFree = true) :
    Exec.OnlyAllocates (resolveEach p call f es) := by
  induction es with
  | nil => exact .pure _
  | cons e es ih =>
    refine .bind (resolve_onlyAllocates p call f e (h e (by simp))) fun _ => .bind ?_ fun _ => .pure _
    exact ih fun e he => h e (by simp [he])

theorem resolveEach_mimics {r : RedirectContext} {c : TypeContext} {u : Usage} {w : View}
    {base : List (Nat × Nat)} (sound : w.sides.Sound) (agrees : u.Agrees r c w)
    (reads : w.reads = true) {es : List Expr} {ts : List Target}
    (h : List.Forall₂ (fun e t => r.target c e = .ok t) es ts)
    (noField : ∀ t ∈ ts, t.isField = false) (fits : ∀ e ∈ es, e.Fits u)
    (outside : ∀ e ∈ es, ¬ e.InField u) (names : ∀ e ∈ es, e.names ⊆ w.names) :
    Exec.Mimics w base (resolveEach w.sides.source call w.source es)
      (resolveEach w.sides.target w.sides.call w.target (ts.zipWith (fun t e => t.place e) es))
      fun maps => List.Forall₂ (Place.Alike w.sides w.names maps) := by
  induction h generalizing base with
  | nil => exact .pure fun _ _ => .nil
  | @cons e t es ts head tail ih =>
    have free : ∀ e ∈ es, e.isCallFree = true := fun e he =>
      Expr.isCallFree_of_fits e (fits e (by simp [he]))
    have rest {base : List (Nat × Nat)} := @ih base (fun t ht => noField t (by simp [ht]))
      (fun e he => fits e (by simp [he])) (fun e he => outside e (by simp [he]))
      fun e he => names e (by simp [he])
    refine .bind (resolve_onlyAllocates _ _ _ e (Expr.isCallFree_of_fits e (fits e (by simp))))
      (fun _ => .bind (resolveEach_onlyAllocates free) fun _ => .pure _)
      (kept_mimics sound agrees reads head (noField t (by simp)) (fits e (by simp))
        (outside e (by simp)) (names e (by simp))) fun maps place place' sub _ hp => ?_
    refine .bind (resolveEach_onlyAllocates free) (fun _ => .pure _) rest fun _ _ _ sub' _ hs => ?_
    exact .pure fun _ sub'' => .cons (hp.mono (List.Subset.trans sub' sub''))
      (hs.imp fun _ _ h => h.mono sub'')

-- What is held by no field.
inductive Outside : Place → Prop
  | blank : Outside .blank
  | named {x : String} : Outside (.named x)
  | temporary {v : Value} : Outside (.temporary v)
  | item {place : Place} {i : Value} : Outside place → Outside (.item place i)

theorem length_resolveEach {es : List Expr} {places : List Place}
    (h : resolveEach p call f es m = .ok places m₁) : places.length = es.length := by
  induction es generalizing m places with
  | nil =>
    obtain ⟨rfl, _⟩ := Exec.ok_pure.1 h
    rfl
  | cons e es ih =>
    rw [resolveEach] at h
    obtain ⟨_, _, _, h⟩ := Exec.ok_bind.1 h
    obtain ⟨_, _, hs, h⟩ := Exec.ok_bind.1 h
    obtain ⟨rfl, rfl⟩ := Exec.ok_pure.1 h
    simp [ih hs]

theorem Alike.outside {S : Sides} {N : List String} {maps : List (Nat × Nat)}
    {place place' : Place} (h : place.Alike S N maps place') : Outside place := by
  induction h with
  | blank => exact .blank
  | named => exact .named
  | item _ _ ih => exact .item ih
  | temporary => exact .temporary

section

variable {r : RedirectContext} {c : TypeContext} {u : Usage} {w : View} {maps : List (Nat × Nat)}
  {m' : Machine} (sound : w.sides.Sound) (agrees : u.Agrees r c w)

include sound agrees

-- A target that is no field but lies in one is an item there.
theorem item_of_inField {e : Expr} {t : Target} {place : Place} (h : r.target c e = .ok t)
    (noField : t.isField = false) (fits : e.Fits u) (inField : e.InField u)
    (names : e.names ⊆ w.names) (ready : w.Ready maps m') (grows : m₁.Grows w.machine)
    (run : resolve w.sides.source call w.source e m = .ok place m₁) :
    ∃ c i, place = .item c i ∧ OfField w.sides c := by
  have held := ofField_of_inField sound agrees ready e fits inField names grows run
  rw [Expr.inField_unparen] at inField
  rw [resolve_unparen] at run
  rw [RedirectContext.target_unparen] at h
  have := e.unparen_ne_paren
  cases he : e.unparen <;> simp only [he] at inField run h <;> try exact inField.elim
  case select span base member =>
    obtain ⟨x, hx, hf⟩ := inField
    obtain ⟨_, _, _, _, known, _, resolves, _⟩ := agrees.field hf
    simp only [RedirectContext.target, RedirectContext.value_of_unparen hx, known, Option.map_some,
      FieldAccess.ok_bind, Except.ok.injEq, exists_eq_left', resolves] at h
    obtain rfl := FieldAccess.ok_pure.1 h
    cases noField
  case index span base i =>
    rw [resolve_index] at run
    obtain ⟨container, _, _, run⟩ := Exec.ok_bind.1 run
    obtain ⟨v, _, _, run⟩ := Exec.ok_bind.1 run
    obtain ⟨rfl, _⟩ := Exec.ok_pure.1 run
    cases held with
    | item held => exact ⟨container, v, rfl, held⟩
  case paren => exact absurd he (this _ _)

-- The places of targets that are no fields although one of them lies in a field.
theorem places_inField {es : List Expr} {ts : List Target} {places : List Place}
    (h : List.Forall₂ (fun e t => r.target c e = .ok t) es ts)
    (noField : ∀ t ∈ ts, t.isField = false) (fits : ∀ e ∈ es, e.Fits u)
    (names : ∀ e ∈ es, e.names ⊆ w.names) (ready : w.Ready maps m') (reads : w.reads = true)
    (below : Below maps m.maps.size) (grows : m₁.Grows w.machine)
    (run : resolveEach w.sides.source call w.source es m = .ok places m₁) :
    (∀ place ∈ places, Outside place ∨ ∃ c i, place = .item c i ∧ OfField w.sides c) ∧
      ∀ e ∈ es, e.InField u → ∃ c i, .item c i ∈ places ∧ OfField w.sides c := by
  induction h generalizing m places with
  | nil =>
    obtain ⟨rfl, _⟩ := Exec.ok_pure.1 run
    simp
  | @cons e t es ts head tail ih =>
    have free : ∀ e ∈ es, e.isCallFree = true := fun e he =>
      Expr.isCallFree_of_fits e (fits e (by simp [he]))
    rw [resolveEach] at run
    obtain ⟨place, m₂, resolved, run⟩ := Exec.ok_bind.1 run
    obtain ⟨rest, _, resolved', run⟩ := Exec.ok_bind.1 run
    obtain ⟨rfl, rfl⟩ := Exec.ok_pure.1 run
    have grows₂ := ((resolveEach_onlyAllocates free).grows resolved').trans grows
    have grows₁ := (resolve_onlyAllocates _ _ _ e (Expr.isCallFree_of_fits e (fits e (by simp)))).grows
      resolved
    obtain ⟨all, one⟩ := ih (fun t ht => noField t (by simp [ht])) (fun e he => fits e (by simp [he]))
      (fun e he => names e (by simp [he]))
      (fun p hp => Nat.lt_of_lt_of_le (below p hp) grows₁.mapsLe) resolved'
    by_cases inField : e.InField u
    · obtain ⟨container, i, hp, held⟩ := item_of_inField sound agrees head (noField t (by simp))
        (fits e (by simp)) inField (names e (by simp)) ready grows₂ resolved
      refine ⟨fun q hq => ?_, fun _ _ _ => ⟨container, i, by simp [hp], held⟩⟩
      rcases List.mem_cons.1 hq with rfl | hq
      · exact .inr ⟨container, i, hp, held⟩
      · exact all q hq
    · have mimics : Exec.Mimics w maps (resolve w.sides.source call w.source e)
          (resolve w.sides.target w.sides.call w.target (t.place e))
          (Place.Alike w.sides w.names) :=
        kept_mimics sound agrees reads head (noField t (by simp)) (fits e (by simp)) inField
          (names e (by simp))
      obtain ⟨place', _, _, _, _, _, _, alike⟩ :=
        mimics.run resolved grows₂ (List.Subset.refl _) below ready
      refine ⟨fun q hq => ?_, fun e' he' inField' => ?_⟩
      · rcases List.mem_cons.1 hq with rfl | hq
        · exact .inl alike.outside
        · exact all q hq
      · rcases List.mem_cons.1 he' with rfl | he'
        · exact absurd inField' inField
        · obtain ⟨container, i, mem, held⟩ := one e' he' inField'
          exact ⟨container, i, by simp [mem], held⟩

end

section

variable {S : Sides} {N : List String} {maps : List (Nat × Nat)} {f' : Frame} {m' : Machine}
  {depth : Nat} {places places' : List Place} {values values' : List Value} {u : Unit}

theorem length_assignIn (x : String) (v : Value) (scopes : List (Table String)) :
    (Frame.assignIn x v scopes).length = scopes.length := by
  induction scopes with
  | nil => rfl
  | cons s rest ih =>
    rw [Frame.assignIn]
    split
    · rfl
    · simp [ih]

-- Access opens and closes no scope.
theorem access_depth {α : Type} {g : Access α} {a : α} (place : Place)
    (run : place.access g f m = .ok (a, f₁) m₁) : f₁.scopes.length = f.scopes.length := by
  induction place generalizing α with
  | blank =>
    obtain ⟨_, _, rfl⟩ := ok_access_blank.1 run
    rfl
  | temporary v =>
    obtain ⟨_, _, rfl⟩ := ok_access_temporary.1 run
    rfl
  | named x =>
    rcases ok_access_named.1 run with ⟨_, _, _, _, rfl⟩ | ⟨_, _, _, _, _, _, _, rfl⟩
    · exact length_assignIn ..
    · rfl
  | field object member => rw [(Step.ok_lift.1 run).2]
  | item container index ih => exact ih run

-- An access that changes no object.
def Access.KeepsObjects {α : Type} (g : Access α) : Prop :=
  ∀ {v m a u m₁}, g v m = .ok (a, u) m₁ → m₁.objects = m.objects

theorem Access.KeepsObjects.item {α : Type} {g : Access α} (h : g.KeepsObjects) (i : Value) :
    (accessItem i g).KeepsObjects := by
  intro v m a u m₁ run
  cases v with
  | slice items =>
    simp only [accessItem, Exec.ok_bind, Exec.ok_orFail] at run
    obtain ⟨n, _, ⟨_, rfl⟩, run⟩ := run
    cases hp : Value.position? n items.length with
    | none =>
      rw [hp] at run
      exact (Exec.ok_fail.1 run).elim
    | some position =>
      rw [hp] at run
      obtain ⟨p, _, got, put⟩ := Exec.ok_bind.1 run
      obtain ⟨_, rfl⟩ := Exec.ok_pure.1 put
      exact h got
  | map address =>
    simp only [accessItem, Exec.ok_bind, Exec.mapKey, Exec.ok_orFail, Exec.ok_get,
      Exec.ok_modify, Exec.ok_pure] at run
    obtain ⟨_, _, ⟨_, rfl⟩, _, _, ⟨rfl, rfl⟩, _, _, got, _, _, rfl, _, rfl⟩ := run
    exact (h got :)
  | nil => exact (Exec.ok_fail.1 run).elim
  | _ => exact (Exec.ok_failType.1 run).elim

theorem Outside.access_objects {α : Type} {g : Access α} {a : α} {place : Place}
    (h : Outside place) (keeps : g.KeepsObjects) (run : place.access g f m = .ok (a, f₁) m₁) :
    m₁.objects = m.objects := by
  induction h generalizing α with
  | blank =>
    obtain ⟨_, got, _⟩ := ok_access_blank.1 run
    exact keeps got
  | temporary =>
    obtain ⟨_, got, _⟩ := ok_access_temporary.1 run
    exact keeps got
  | named =>
    rcases ok_access_named.1 run with ⟨_, _, _, got, _⟩ | ⟨_, _, _, _, _, got, rfl, _⟩
    · exact keeps got
    · exact (keeps got :)
  | item _ ih => exact ih (keeps.item _) run

-- Writing to an item of a field fails, whatever is written elsewhere before.
theorem writeAll_fails (kinds : S.InKind m)
    (all : ∀ place ∈ places, Outside place ∨ ∃ c i, place = .item c i ∧ OfField S c)
    (one : ∃ c i, .item c i ∈ places ∧ OfField S c) (le : places.length ≤ values.length) :
    Step.writeAll places values f m ≠ .ok (u, f₁) m₁ := by
  intro run
  induction places generalizing values f m with
  | nil =>
    obtain ⟨_, _, mem, _⟩ := one
    cases mem
  | cons place places ih =>
    cases values with
    | nil => simp at le
    | cons v values =>
      rw [Step.writeAll] at run
      obtain ⟨_, f₂, m₂, written, run⟩ := Step.ok_bind.1 run
      rcases all place (by simp) with outside | ⟨c, i, rfl, ofField⟩
      · have same : m₂.objects = m.objects := outside.access_objects (fun h => by
          rw [(Exec.ok_pure.1 h).2]) written
        obtain ⟨c, i, mem, ofField⟩ := one
        cases mem with
        | head => exact ofField.item_fails kinds written
        | tail _ mem =>
          exact ih (kinds.of_objects same) (fun place hp => all place (by simp [hp]))
            ⟨c, i, mem, ofField⟩ (by simpa using le) run
      · exact ofField.item_fails kinds written

theorem writeAll_alike (states : States S N maps f m f' m')
    (h : List.Forall₂ (Place.Alike S N maps) places places')
    (hv : List.Forall₂ (Value.Alike S.loose maps) values values')
    (run : Step.writeAll places values f m = .ok (u, f₁) m₁) :
    ∃ f'₁ m'₁, Step.writeAll places' values' f' m' = .ok ((), f'₁) m'₁ ∧
      States S N maps f₁ m₁ f'₁ m'₁ ∧ m₁.objects = m.objects ∧
      f₁.scopes.length = f.scopes.length := by
  induction h generalizing f m f' m' values values' with
  | nil =>
    obtain ⟨_, rfl, rfl⟩ := Step.ok_pure.1 run
    exact ⟨f', m', rfl, states, rfl, rfl⟩
  | @cons place place' _ _ head _ ih =>
    cases hv with
    | nil =>
      obtain ⟨_, rfl, rfl⟩ := Step.ok_pure.1 run
      exact ⟨f', m', rfl, states, rfl, rfl⟩
    | cons hv hvs =>
      rw [Step.writeAll] at run
      obtain ⟨_, f₂, m₂, written, run⟩ := Step.ok_bind.1 run
      obtain ⟨_, f'₂, m'₂, written', states', objects, _⟩ := head.access (.put hv) states written
      obtain ⟨f'₁, m'₁, run', states'', objects', depth⟩ := ih states' hvs run
      exact ⟨f'₁, m'₁, Step.ok_bind.2 ⟨(), f'₂, m'₂, written', run'⟩, states'',
        objects'.trans objects, depth.trans (access_depth place written)⟩

end

end Place

namespace Exec

variable {p : Program} {call : CallHandler} {f : Frame} {m m₁ : Machine}

theorem length_all {xs : List (Exec Value)} {vs : List Value} (h : all xs m = .ok vs m₁) :
    vs.length = xs.length := by
  induction xs generalizing m vs with
  | nil =>
    obtain ⟨rfl, _⟩ := ok_pure.1 h
    rfl
  | cons x xs ih =>
    rw [all] at h
    obtain ⟨v, _, _, h⟩ := ok_bind.1 h
    obtain ⟨vs', _, hs, h⟩ := ok_bind.1 h
    obtain ⟨rfl, rfl⟩ := ok_pure.1 h
    simp [ih hs]

-- There is a value for each of the targets if each has its own or one expression gives them all.
theorem length_evalFor {count : Nat} {es : List Expr} {vs : List Value}
    (enough : count ≤ es.length ∨ es.length = 1) (h : evalFor p call f count es m = .ok vs m₁) :
    count ≤ vs.length := by
  rcases es with _ | ⟨e, _ | ⟨e', es⟩⟩
  · have none : count = 0 := by simpa using enough
    simp [none]
  · rw [evalFor] at h
    split at h
    · obtain ⟨ws, _, _, h⟩ := ok_bind.1 h
      split at h
      case isTrue same =>
        obtain ⟨rfl, _⟩ := ok_pure.1 h
        exact Nat.le_of_eq same.symm
      case isFalse => exact (ok_failType.1 h).elim
    case isFalse le =>
      obtain ⟨v, _, _, h⟩ := ok_bind.1 h
      obtain ⟨rfl, _⟩ := ok_pure.1 h
      simpa using le
  · have length := length_all h
    rw [actions_eq, List.length_map] at length
    have : count ≤ (e :: e' :: es).length := by simpa using enough
    omega

end Exec

namespace Step

variable {S : Sides} {N : List String} {maps base : List (Nat × Nat)} {depth : Nat} {u : Usage}
  {r : RedirectContext} {c : TypeContext} {call : CallHandler} {f f₁ f' : Frame}
  {m m₁ m' : Machine} {flow : Flow}

theorem ok_assign {p : Program} {targets values : List Expr} :
    assign p call targets .assign values f m = .ok (flow, f₁) m₁ ↔
      ∃ places m₂ vs m₃, Place.resolveEach p call f targets m = .ok places m₂ ∧
        Exec.evalFor p call f targets.length values m₂ = .ok vs m₃ ∧
        writeAll places vs f m₃ = .ok ((), f₁) m₁ ∧ flow = .next := by
  simp only [assign, evalFor, ok_bind, Place.ok_resolveAll, ok_reading, ok_pure]
  grind

-- An assignment that writes no field does the same after redirection.
theorem assign_kept (sound : S.Sound) (agrees : u.Agrees r c (S.view N f f' m))
    (sync : Sync S N depth maps f m f' m') {targets values : List Expr} {ts : List Target}
    {vs : List TypedExpr} (htargets : List.Forall₂ (fun e t => r.target c e = .ok t) targets ts)
    (noField : ∀ t ∈ ts, t.isField = false)
    (hvalues : List.Forall₂ (fun e t => r.value c e = .ok t) values vs)
    (enough : (∃ e ∈ targets, e.InField u) →
      targets.length ≤ values.length ∨ values.length = 1)
    (fits : ∀ e ∈ targets ++ values, e.Fits u) (names : ∀ e ∈ targets ++ values, e.names ⊆ N)
    (run : assign S.source call targets .assign values f m = .ok (flow, f₁) m₁) :
    ∃ maps₁ f'₁ m'₁, maps ⊆ maps₁ ∧ assign S.target S.call
      (ts.zipWith (fun t e => t.place e) targets) .assign (vs.map (·.expr)) f' m' =
        .ok (.next, f'₁) m'₁ ∧
      Sync S N depth maps₁ f₁ m₁ f'₁ m'₁ ∧ flow = .next := by
  obtain ⟨places, m₂, values₁, m₃, resolved, evaluated, written, rfl⟩ := ok_assign.1 run
  have freeTargets : ∀ e ∈ targets, e.isCallFree = true := fun e he =>
    Expr.isCallFree_of_fits e (fits e (List.mem_append_left _ he))
  have freeValues : ∀ e ∈ values, e.isCallFree = true := fun e he =>
    Expr.isCallFree_of_fits e (fits e (List.mem_append_right _ he))
  have grows₁ := (Place.resolveEach_onlyAllocates freeTargets).grows resolved
  have grows₂ := (Exec.evalFor_onlyAllocates _ _ _ _ freeValues).grows evaluated
  have grows := grows₁.trans grows₂
  have agrees := agrees.grow grows
  have ready := sync.ready grows sync.inKind
  have bounded : ∀ t ∈ S.twins, t.object < m.objects.size := fun t ht => (sync.mirrored t ht).object
  have kinds := sync.inKind.grow grows bounded
  by_cases inside : ∃ e ∈ targets, e.InField u
  · have below : Below maps m.maps.size := fun p hp => (sync.tables.bounded p hp).1
    obtain ⟨all, one⟩ := Place.places_inField sound agrees htargets noField
      (fun e he => fits e (List.mem_append_left _ he))
      (fun e he => names e (List.mem_append_left _ he)) ready rfl below grows₂ resolved
    have le := Exec.length_evalFor (enough inside) evaluated
    obtain ⟨e, mem, inField⟩ := inside
    rw [← Place.length_resolveEach resolved] at le
    exact absurd written (Place.writeAll_fails kinds all (one e mem inField) le)
  · simp only [not_exists, not_and] at inside
    have both : Exec.Mimics (S.view N f f' m₃) maps
        (do return (← Place.resolveEach S.source call f targets,
          ← Exec.evalFor S.source call f targets.length values))
        (do return (← Place.resolveEach S.target S.call f'
            (ts.zipWith (fun t e => t.place e) targets),
          ← Exec.evalFor S.target S.call f' targets.length (vs.map (·.expr))))
        fun maps a b => List.Forall₂ (Place.Alike S N maps) a.1 b.1 ∧
          List.Forall₂ (Value.Alike S.loose maps) a.2 b.2 := by
      refine .bind (Place.resolveEach_onlyAllocates freeTargets) (fun _ =>
        .bind (Exec.evalFor_onlyAllocates _ _ _ _ freeValues) fun _ => .pure _)
        (Place.resolveEach_mimics sound agrees rfl htargets noField
          (fun e he => fits e (List.mem_append_left _ he)) inside
          fun e he => names e (List.mem_append_left _ he)) fun maps₁ a b sub _ hab => ?_
      refine .bind (Exec.evalFor_onlyAllocates _ _ _ _ freeValues) (fun _ => .pure _)
        (Exec.evalFor_mimics sound agrees _ hvalues
          (fun e he => fits e (List.mem_append_right _ he))
          (fun e he => names e (List.mem_append_right _ he)) (.inl rfl))
        fun maps₂ vs vs' sub' _ hvs => ?_
      exact .pure fun _ sub'' => ⟨hab.imp fun _ _ h => h.mono (List.Subset.trans sub' sub''),
        hvs.imp fun _ _ h => h.mono (List.Subset.refl _) sub''⟩
    obtain ⟨⟨places', values'⟩, m'₁, ext, run', grows', _, tables, hplaces, hvalues'⟩ :=
      both.run (Exec.ok_bind.2 ⟨_, _, resolved, Exec.ok_bind.2 ⟨_, _, evaluated, rfl⟩⟩) (.refl _)
        (List.Subset.refl _) (fun p hp => (sync.tables.bounded p hp).1) ready
    obtain ⟨_, _, resolved', run'⟩ := Exec.ok_bind.1 run'
    obtain ⟨_, m'₂, evaluated', run'⟩ := Exec.ok_bind.1 run'
    obtain ⟨e, e'⟩ := Exec.ok_pure.1 run'
    obtain ⟨rfl, rfl⟩ := Prod.mk.inj e
    subst e'
    have states₁ := sync.toStates.mono (List.subset_append_right ..) grows grows' tables
    obtain ⟨f'₁, m'₃, written', states₂, objects, length⟩ :=
      Place.writeAll_alike states₁ hplaces hvalues' written
    refine ⟨ext ++ maps, f'₁, m'₃, List.subset_append_right .., ok_assign.2 ?_,
      ⟨states₂, kinds.of_objects objects, length.trans sync.depth⟩, rfl⟩
    have length : (ts.zipWith (fun t e => t.place e) targets).length = targets.length := by
      simp [htargets.length_eq]
    exact ⟨_, _, _, _, resolved', by rw [length]; exact evaluated', written', rfl⟩

end Step

end FieldAccess
