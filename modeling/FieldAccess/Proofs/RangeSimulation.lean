import FieldAccess.Proofs.SimpleStatements

namespace FieldAccess

namespace Frame

-- The frame in which the variable of a loop has its value, if the loop has one.
def bound (f : Frame) (target : Option Expr) (v : Value) : Frame :=
  (target.bind (·.ident?)).elim f (f.define · v)

end Frame

namespace Place

-- What is done to a place can be done in a scope of its own.
theorem access_push {α : Type} {g : Access α} {a : α} {place : Place} {f f₁ : Frame} {m m₁ : Machine}
    (run : place.access g f m = .ok (a, f₁) m₁) :
    place.access g f.push m = .ok (a, f₁.push) m₁ := by
  induction place generalizing α with
  | blank =>
    obtain ⟨u, got, rfl⟩ := ok_access_blank.1 run
    exact ok_access_blank.2 ⟨u, got, rfl⟩
  | temporary v =>
    obtain ⟨u, got, rfl⟩ := ok_access_temporary.1 run
    exact ok_access_temporary.2 ⟨u, got, rfl⟩
  | field address member =>
    obtain ⟨got, rfl⟩ := Step.ok_lift.1 run
    exact Step.ok_lift.2 ⟨got, rfl⟩
  | item c i ih => exact ih run
  | named x =>
    rw [ok_access_named, f.get?_push]
    rcases ok_access_named.1 run with ⟨v, u, known, got, rfl⟩ | ⟨v, u, m₂, new, known, got, rfl, rfl⟩
    · exact .inl ⟨v, u, known, got, rfl⟩
    · exact .inr ⟨v, u, m₂, new, known, got, rfl, rfl⟩

-- Where the variables of the method are written, the others keep their values.
theorem Alike.access_keeps {S : Sides} {N : List String} {maps : List (Nat × Nat)} {α : Type}
    {g : Access α} {a : α} {place place' : Place} {f' f'₁ : Frame} {m' m'₁ : Machine}
    (h : place.Alike S N maps place') (run : place'.access g f' m' = .ok (a, f'₁) m'₁) {y : String}
    (hy : y ∉ N) : f'₁.get? y = f'.get? y := by
  induction h generalizing α with
  | blank =>
    obtain ⟨_, _, rfl⟩ := ok_access_blank.1 run
    rfl
  | temporary =>
    obtain ⟨_, _, rfl⟩ := ok_access_temporary.1 run
    rfl
  | item _ _ ih => exact ih run
  | @named x mem =>
    rcases ok_access_named.1 run with ⟨_, u, _, _, rfl⟩ | ⟨_, _, _, _, _, _, _, rfl⟩
    · exact Frame.get?_assign_of_ne u fun e => hy (e ▸ mem)
    · rfl

end Place

namespace Step

variable {S : Sides} {N : List String} {base maps : List (Nat × Nat)} {depth : Nat} {u : Usage}
  {r : RedirectContext} {c : TypeContext} {call : CallHandler} {f f₁ f' : Frame}
  {m m₁ m' : Machine} {v v' : Value}

-- What is written to an existing place.
theorem ok_bindItem_assign {p : Program} {e : Expr} {x : Unit} :
    bindItem p call false v (some e) f m = .ok (x, f₁) m₁ ↔
      ∃ place m₂, Place.resolve p call f e m = .ok place m₂ ∧
        place.write v f m₂ = .ok (x, f₁) m₁ := by
  simp only [bindItem, resolve, ok_bind, ok_reading]
  grind

theorem bindItem_assign_depth {p : Program} {e : Option Expr} {x : Unit}
    (run : bindItem p call false v e f m = .ok (x, f₁) m₁) : f₁.scopes.length = f.scopes.length := by
  cases e with
  | none =>
    obtain ⟨-, rfl, -⟩ := ok_pure.1 run
    rfl
  | some e =>
    obtain ⟨place, _, -, written⟩ := ok_bindItem_assign.1 run
    exact Place.access_depth place written

theorem bindItem_assign_push {p : Program} {e : Option Expr} {x : Unit}
    (run : bindItem p call false v e f m = .ok (x, f₁) m₁) :
    bindItem p call false v e f.push m = .ok (x, f₁.push) m₁ := by
  cases e with
  | none =>
    obtain ⟨-, rfl, rfl⟩ := ok_pure.1 run
    rfl
  | some e =>
    obtain ⟨place, m₂, resolved, written⟩ := ok_bindItem_assign.1 run
    rw [Place.resolve_agrees (f.agrees_push e.names) e (List.Subset.refl _)] at resolved
    exact ok_bindItem_assign.2 ⟨place, m₂, resolved, Place.access_push written⟩

section

variable (sound : S.Sound) (agrees : ∀ f f' m, u.Agrees r c (S.view N f f' m))
  (sync : Sync S N depth maps f m f' m') (hv : Value.Alike S.loose maps v v')

include sound agrees sync hv

-- What is written to the place of a target that is no field is written to its place on wrappers.
theorem write_kept {e : Expr} {t : Target} (ht : r.target c e = .ok t) (noField : t.isField = false)
    (fits : e.Fits u) (names : e.names ⊆ N) {x : Unit}
    (run : bindItem S.source call false v (some e) f m = .ok (x, f₁) m₁) :
    ∃ maps₁ place' m'₂ f'₁ m'₁, maps ⊆ maps₁ ∧
      Place.resolve S.target S.call f' (t.place e) m' = .ok place' m'₂ ∧
      place'.write v' f' m'₂ = .ok ((), f'₁) m'₁ ∧ States S N maps₁ f₁ m₁ f'₁ m'₁ ∧
      S.InKind m₁ ∧ ∀ y ∉ N, f'₁.get? y = f'.get? y := by
  obtain ⟨place, m₂, resolved, written⟩ := ok_bindItem_assign.1 run
  have grows := (Place.resolve_onlyAllocates _ _ _ e (Expr.isCallFree_of_fits e fits)).grows resolved
  have bounded : ∀ t ∈ S.twins, t.object < m.objects.size := fun t ht => (sync.mirrored t ht).object
  have below : Below maps m.maps.size := fun p hp => (sync.tables.bounded p hp).1
  have ready := sync.ready grows sync.inKind
  have outside : ¬ e.InField u := by
    intro inField
    obtain ⟨c, i, rfl, ofField⟩ := Place.item_of_inField sound (agrees f f' m₂) ht noField fits inField
      names ready (.refl _) resolved
    exact ofField.item_fails (sync.inKind.grow grows bounded) written
  obtain ⟨place', m'₂, ext, resolved', grows', -, tables, alike⟩ :=
    (Place.kept_mimics sound (agrees f f' m₂) rfl ht noField fits outside names).run resolved (.refl _)
      (List.Subset.refl maps) below ready
  have sub := List.subset_append_right ext maps
  obtain ⟨_, f'₁, m'₁, written', states, objects, -⟩ :=
    alike.access (.put (hv.mono (List.Subset.refl _) sub)) (sync.toStates.mono sub grows grows' tables)
      written
  exact ⟨ext ++ maps, place', m'₂, f'₁, m'₁, sub, resolved', written', states,
    (sync.inKind.grow grows bounded).of_objects objects, fun y hy => alike.access_keeps written' hy⟩

variable (rounds : Nat) {span : Span} {type : Option TypeExpr} {temps temps' : Temporaries}

omit sound agrees sync hv in
theorem bindItem_blank {p : Program} {e : Expr} (blank : e.unparen.ident? = some "_") {x : Unit}
    (run : bindItem p call false v (some e) f m = .ok (x, f₁) m₁) : f = f₁ ∧ m = m₁ := by
  obtain ⟨place, _, resolved, written⟩ := ok_bindItem_assign.1 run
  rw [Place.resolve_unparen] at resolved
  cases he : e.unparen <;> simp only [he, Expr.ident?, reduceCtorEq, Option.some.injEq] at blank
  subst blank
  rw [he, Place.resolve] at resolved
  obtain ⟨rfl, rfl⟩ := Exec.ok_pure.1 resolved
  obtain ⟨_, got, rfl⟩ := Place.ok_access_blank.1 written
  exact ⟨rfl, (Exec.ok_pure.1 got).2⟩

-- The mutator sets the field that the value is written to.
theorem write_field (rounds : Nat) {receiver : Expr} {info : FieldInfo} {e : Expr}
    (ht : r.target c e = .ok (.field receiver info)) (fits : e.Fits u) (names : e.names ⊆ N)
    {span : Span} {type : Option StaticType} {y : String} (fresh : y ∉ N)
    (held : f'.get? y = some v') {x : Unit}
    (run : bindItem S.source call false v (some e) f m = .ok (x, f₁) m₁) :
    ∃ maps₁ m'₁, maps ⊆ maps₁ ∧ exec S.target S.call rounds
        (info.write r.settings receiver ⟨.ident span y, type⟩ span) f' m' = .ok (.next, f') m'₁ ∧
      States S N maps₁ f₁ m₁ f' m'₁ := by
  obtain ⟨place, m₂, resolved, written⟩ := ok_bindItem_assign.1 run
  have grows := (Place.resolve_onlyAllocates _ _ _ e (Expr.isCallFree_of_fits e fits)).grows resolved
  have below : Below maps m.maps.size := fun p hp => (sync.tables.bounded p hp).1
  have ready := sync.ready grows sync.inKind
  by_cases field : e.IsField u
  · obtain ⟨denotes, rfl⟩ := denotes_of_resolve sound (agrees f f' m₂) ht
      field.isMemberTarget.isSimpleTarget fits names ready below (.refl _) resolved
    cases denotes with
    | field seen stores hy mem var =>
      obtain ⟨rfl, rfl⟩ := Place.ok_write_field.1 written
      have due : Due S m maps m' (Exec.eval S.target S.call f' (.ident span y)) (.ofRead v) :=
        Late.due (.held fresh held hv : Late S N m f [] maps f' m' (.ident span y) (.ofRead v))
      obtain ⟨ext, m'₁, run', _, machines, _⟩ := write_runs rounds type r.settings span sound
        (sound.seen_subset _ seen) stores hy var due (Job.ofRead_avoids v maps) sync.toMachines rfl
      have sub := List.subset_append_right ext maps
      exact ⟨ext ++ maps, m'₁, sub, run', machines, sync.scopes.mono sub⟩
  · exact (Place.resolve_stray sound (agrees f f' m₂) ht rfl field fits names ready below (.refl _)
      resolved).elim

variable (rounds : Nat) {span : Span} {type : Option TypeExpr} {temps temps' : Temporaries}

-- What a variable of the loop holds is written to the target that the variable stands for.
theorem prelude_runs {e : Expr} {t : Target} (ht : r.target c e = .ok t) (fits : e.Fits u)
    (names : e.names ⊆ N) {new : Option Expr} {ss : List Stmt}
    (h : r.rangeTarget span type (some t) temps = .ok ((new, ss), temps'))
    (held : ∀ y ∈ new.bind (·.ident?), y ≠ "_" → y ∉ N ∧ f'.get? y = some v') {x : Unit}
    (run : bindItem S.source call false v (some e) f m = .ok (x, f₁) m₁) :
    ∃ maps₁ f'₁ m'₁, maps ⊆ maps₁ ∧
      sequence (steps S.target S.call rounds ss) f' m' = .ok (.next, f'₁) m'₁ ∧
      States S N maps₁ f₁ m₁ f'₁ m'₁ ∧ ∀ y ∉ N, f'₁.get? y = f'.get? y := by
  cases t with
  | blank =>
    obtain ⟨e, -⟩ := Redirecting.ok_pure.1 h
    obtain ⟨rfl, rfl⟩ := Prod.mk.inj e
    obtain ⟨rfl, rfl⟩ := bindItem_blank (RedirectContext.ok_target_blank ht) run
    exact ⟨maps, f', m', List.Subset.refl _, rfl, sync.toStates, fun _ _ => rfl⟩
  | plain place =>
    simp only [RedirectContext.rangeTarget, Redirecting.ok_bind, Redirecting.ok_modifyGet,
      Redirecting.ok_pure] at h
    obtain ⟨y, temps₁, drawn, e, -⟩ := h
    obtain ⟨rfl, rfl⟩ := Prod.mk.inj e
    have named := ((Draws.fresh_name place.nameHint).fresh temps y (by rw [drawn]; simp)).2
    obtain ⟨-, known⟩ := held y rfl named
    obtain ⟨maps₁, place', m'₂, f'₁, m'₁, sub, resolved, written, states, -, keeps⟩ :=
      write_kept sound agrees sync hv ht rfl fits names run
    refine ⟨maps₁, f'₁, m'₁, sub, ?_, states, keeps⟩
    rw [steps, steps, sequence_single]
    exact assign_single resolved (Exec.ok_eval_ident.2 ⟨by simp [Frame.var?, known], rfl⟩) written
  | field receiver info =>
    simp only [RedirectContext.rangeTarget, Redirecting.ok_bind, Redirecting.ok_modifyGet,
      Redirecting.ok_pure, Redirecting.ok_lift] at h
    obtain ⟨y, temps₁, drawn, _, _, _, e, -⟩ := h
    obtain ⟨rfl, rfl⟩ := Prod.mk.inj e
    have named := ((Draws.fresh_name info.name).fresh temps y (by rw [drawn]; simp)).2
    obtain ⟨fresh, known⟩ := held y rfl named
    obtain ⟨maps₁, m'₁, sub, run', states⟩ :=
      write_field sound agrees sync hv rounds ht fits names fresh known run
    refine ⟨maps₁, f', m'₁, sub, ?_, states, fun _ _ => rfl⟩
    rw [steps, steps, sequence_single]
    exact run'

end

end Step

namespace RedirectContext

variable {r : RedirectContext} {span : Span} {type : Option TypeExpr} {t : Option Target}
  {temps temps' : Temporaries} {new : Option Expr} {ss : List Stmt}

-- The variable that a loop gets for a target is new.
theorem rangeTarget_fresh (h : r.rangeTarget span type t temps = .ok ((new, ss), temps')) :
    temps.taken ⊆ temps'.taken ∧ (∀ e ∈ new, ∃ y, e = .ident span y) ∧
      ∀ y ∈ new.bind (·.ident?), y ≠ "_" → y ∉ temps.taken ∧ y ∈ temps'.taken := by
  have drawn {hint y : String} {temps₁ : Temporaries}
      (h : Temporaries.fresh hint temps = (y, temps₁)) :
      temps.taken ⊆ temps₁.taken ∧ y ∉ temps.taken ∧ y ∈ temps₁.taken := by
    have draws := Draws.fresh_name hint
    have mono := draws.mono temps
    have fresh := draws.fresh temps y (by rw [h]; simp)
    have taken := draws.taken temps y (by rw [h]; simp)
    rw [h] at mono taken
    exact ⟨mono, fresh.1, taken⟩
  cases t with
  | none =>
    obtain ⟨e, rfl⟩ := Redirecting.ok_pure.1 h
    obtain ⟨rfl, rfl⟩ := Prod.mk.inj e
    exact ⟨List.Subset.refl _, by simp, by simp⟩
  | some t =>
    cases t with
    | blank =>
      obtain ⟨e, rfl⟩ := Redirecting.ok_pure.1 h
      obtain ⟨rfl, rfl⟩ := Prod.mk.inj e
      exact ⟨List.Subset.refl _, by simp, by simp [Expr.ident?]⟩
    | plain place =>
      simp only [rangeTarget, Redirecting.ok_bind, Redirecting.ok_modifyGet, Redirecting.ok_pure] at h
      obtain ⟨y, temps₁, draw, e, rfl⟩ := h
      obtain ⟨rfl, rfl⟩ := Prod.mk.inj e
      obtain ⟨mono, fresh, taken⟩ := drawn draw
      exact ⟨mono, by simp, by simp [Expr.ident?, fresh, taken]⟩
    | field receiver info =>
      simp only [rangeTarget, Redirecting.ok_bind, Redirecting.ok_modifyGet, Redirecting.ok_lift,
        Redirecting.ok_pure] at h
      obtain ⟨y, temps₁, draw, _, _, ⟨-, rfl⟩, e, rfl⟩ := h
      obtain ⟨rfl, rfl⟩ := Prod.mk.inj e
      obtain ⟨mono, fresh, taken⟩ := drawn draw
      exact ⟨mono, by simp, by simp [Expr.ident?, fresh, taken]⟩

end RedirectContext

section

variable {S : Sides} {N : List String} {base maps : List (Nat × Nat)} {call : CallHandler}
  {f f' : Frame} {m m' : Machine} {new : Option Expr} {v : Value} {span : Span}

theorem Step.ok_bindItem_define {p : Program} (h : ∀ e ∈ new, ∃ y, e = .ident span y) :
    bindItem p call true v new f m = .ok ((), f.bound new v) m := by
  cases new with
  | none => rfl
  | some e =>
    obtain ⟨y, rfl⟩ := h e rfl
    rfl

theorem Frame.bound_get?_of_ne (f : Frame) (v : Value) {y : String}
    (other : y ∉ new.bind (·.ident?)) (scopes : f.scopes ≠ []) : (f.bound new v).get? y = f.get? y := by
  rw [bound]
  cases hx : new.bind (·.ident?) with
  | none => rfl
  | some x =>
    rw [hx] at other
    by_cases blank : x = "_"
    · rw [blank, Option.elim_some, Frame.define_blank]
    · rw [Option.elim_some, Frame.get?_define blank scopes, if_neg fun e => other (by simp [e])]

theorem Frame.bound_get? (f : Frame) (v : Value) {y : String} (mem : y ∈ new.bind (·.ident?))
    (named : y ≠ "_") (scopes : f.scopes ≠ []) : (f.bound new v).get? y = some v := by
  rw [bound, mem, Option.elim_some, Frame.get?_define named scopes, if_pos rfl]

theorem Frame.length_bound (f : Frame) (v : Value) :
    (f.bound new v).scopes.length = f.scopes.length := by
  rw [bound]
  cases new.bind (·.ident?) with
  | none => rfl
  | some x => exact f.length_define x v

theorem ScopesAlike.bound_right (h : ScopesAlike S N maps f.scopes f'.scopes)
    (fresh : ∀ y ∈ new.bind (·.ident?), y ≠ "_" → y ∉ N) :
    ScopesAlike S N maps f.scopes (f'.bound new v).scopes := by
  rw [Frame.bound]
  cases hx : new.bind (·.ident?) with
  | none => exact h
  | some x =>
    by_cases blank : x = "_"
    · rwa [blank, Option.elim_some, Frame.define_blank]
    · exact h.define_right (fresh x hx blank)

end

namespace Step

variable {S : Sides} {N : List String} {base maps : List (Nat × Nat)} {depth : Nat} {u : Usage}
  {r : RedirectContext} {c : TypeContext} {call : CallHandler} {f f₁ f' : Frame}
  {m m₁ m' : Machine} {holds : Machine → Bool} {v v' k k' : Value}

section

variable (rounds : Nat) (sound : S.Sound) (agrees : ∀ f f' m, u.Agrees r c (S.view N f f' m))
  (kinds : ∀ m, holds m = true → S.InKind m)

include sound agrees kinds

-- One of the two statements in front of the body, for the key or the value.
theorem prelude_simulates {e : Option Expr} {t : Option Target}
    (ht : r.targets c e.toList = .ok t.toList) (fits : ∀ target ∈ e, target.Fits u)
    (names : ∀ target ∈ e, target.names ⊆ N) {span : Span} {type : Option TypeExpr}
    {temps temps' : Temporaries} {new : Option Expr} {ss : List Stmt}
    (h : r.rangeTarget span type t temps = .ok ((new, ss), temps'))
    (sync : Sync S N depth maps f.push m f' m') (hv : Value.Alike S.loose maps v v')
    (held : ∀ y ∈ new.bind (·.ident?), y ≠ "_" → y ∉ N ∧ f'.get? y = some v') {x : Unit}
    (run : (do bindItem S.source call false v e; watch holds : Step Unit) f m = .ok (x, f₁) m₁) :
    ∃ maps₁ f'₁ m'₁, maps ⊆ maps₁ ∧
      sequence (steps S.target S.call rounds ss) f' m' = .ok (.next, f'₁) m'₁ ∧
      Sync S N depth maps₁ f₁.push m₁ f'₁ m'₁ ∧ ∀ y ∉ N, f'₁.get? y = f'.get? y := by
  obtain ⟨_, g, mid, bound, looked⟩ := ok_bind.1 run
  obtain ⟨held', rfl, rfl⟩ := ok_watch.1 looked
  have depth' := bindItem_assign_depth bound
  have bound := bindItem_assign_push bound
  have found : ∃ maps₁ f'₁ m'₁, maps ⊆ maps₁ ∧
      sequence (steps S.target S.call rounds ss) f' m' = .ok (.next, f'₁) m'₁ ∧
      States S N maps₁ g.push mid f'₁ m'₁ ∧ ∀ y ∉ N, f'₁.get? y = f'.get? y := by
    rw [RedirectContext.targets, ok_mapM] at ht
    cases e with
    | none =>
      cases t with
      | none =>
        obtain ⟨e, -⟩ := Redirecting.ok_pure.1 h
        obtain ⟨rfl, rfl⟩ := Prod.mk.inj e
        obtain ⟨-, same, rfl⟩ := ok_pure.1 bound
        exact ⟨maps, f', m', List.Subset.refl _, rfl, same ▸ sync.toStates, fun _ _ => rfl⟩
      | some => cases ht
    | some e =>
      cases t with
      | none => cases ht
      | some t =>
        cases ht with
        | cons head =>
          exact prelude_runs sound agrees sync hv rounds head (fits e rfl) (names e rfl) h held bound
  obtain ⟨maps₁, f'₁, m'₁, sub, run', states, keeps⟩ := found
  refine ⟨maps₁, f'₁, m'₁, sub, run', ⟨states, kinds _ held', ?_⟩, keeps⟩
  rw [← sync.depth]
  simp [Frame.push, depth']

-- A round of a loop that gets variables of its own.
theorem round_simulates {key value : Option Expr} {kt vt : Option Target}
    (hk : r.targets c key.toList = .ok kt.toList) (hv : r.targets c value.toList = .ok vt.toList)
    (fits : (∀ e ∈ key, e.Fits u) ∧ ∀ e ∈ value, e.Fits u)
    (names : (∀ e ∈ key, e.names ⊆ N) ∧ ∀ e ∈ value, e.names ⊆ N) {span : Span}
    {kType vType : Option TypeExpr} {temps temps₁ temps₂ : Temporaries} (covers : N ⊆ temps.taken)
    {newKey newValue : Option Expr} {first second : List Stmt}
    (ofKey : r.rangeTarget span kType kt temps = .ok ((newKey, first), temps₁))
    (ofValue : r.rangeTarget span vType vt temps₁ = .ok ((newValue, second), temps₂))
    (keys : Value.Alike S.loose base k k') (values : Value.Alike S.loose base v v')
    {xs xs' : List (Step Flow)}
    (body : Simulates S N base (sequence xs) (sequence xs') (Flow.Alike S)) :
    Simulates S N base
      (inScope do
        bindItem S.source call false k key
        watch holds
        bindItem S.source call false v value
        watch holds
        inScope (sequence xs))
      (inScope do
        bindItem S.target S.call true k' newKey
        bindItem S.target S.call true v' newValue
        inScope (sequence (steps S.target S.call rounds (first ++ second) ++ xs')))
      (Flow.Alike S) where
  run {depth maps f m f' m' flow f₃ m₃} sub sync run := by
    obtain ⟨_, round, rfl⟩ := ok_inScope.1 run
    obtain ⟨_, f₁, m₁, keyBound, round⟩ := ok_bind.1 round
    obtain ⟨_, f₂, m₂, keyLooked, round⟩ := ok_bind.1 round
    obtain ⟨_, f₄, m₄, valueBound, round⟩ := ok_bind.1 round
    obtain ⟨_, f₅, m₅, valueLooked, rest⟩ := ok_bind.1 round
    obtain ⟨_, inner, rfl⟩ := ok_inScope.1 rest
    obtain ⟨monoKey, plainKey, freshKey⟩ := RedirectContext.rangeTarget_fresh ofKey
    obtain ⟨-, plainValue, freshValue⟩ := RedirectContext.rangeTarget_fresh ofValue
    -- The variables of the loop get their values, in the scope around the body.
    let F := (f'.push.bound newKey k').bound newValue v'
    have scopes : f'.push.scopes ≠ [] := by simp [Frame.push]
    have scopes' : (f'.push.bound newKey k').scopes ≠ [] :=
      List.ne_nil_of_length_pos (by rw [Frame.length_bound]; simp [Frame.push])
    have alike : ScopesAlike S N maps f.push.scopes F.scopes :=
      (sync.push.scopes.bound_right fun y hy named hn => (freshKey y hy named).1
        (covers hn)).bound_right fun y hy named hn => (freshValue y hy named).1 (monoKey (covers hn))
    have sync₀ : Sync S N (depth + 2) maps f.push.push m F.push m' :=
      Sync.push ⟨⟨sync.toMachines, alike⟩, sync.inKind, sync.push.depth⟩
    have heldKey : ∀ y ∈ newKey.bind (·.ident?), y ≠ "_" → y ∉ N ∧ F.push.get? y = some k' := by
      intro y hy named
      obtain ⟨fresh, taken⟩ := freshKey y hy named
      refine ⟨fun hn => fresh (covers hn), ?_⟩
      rw [Frame.get?_push, Frame.bound_get?_of_ne _ _ (fun hv => (freshValue y hv named).1 taken)
        scopes', Frame.bound_get? _ _ hy named scopes]
    have heldValue : ∀ y ∈ newValue.bind (·.ident?), y ≠ "_" → y ∉ N ∧ F.push.get? y = some v' := by
      intro y hy named
      refine ⟨fun hn => (freshValue y hy named).1 (monoKey (covers hn)), ?_⟩
      rw [Frame.get?_push, Frame.bound_get? _ _ hy named scopes']
    -- In front of the body, they are written to the targets.
    obtain ⟨maps₁, g₁, p₁, sub₁, run₁, sync₁, keeps₁⟩ :=
      prelude_simulates rounds sound agrees kinds hk fits.1 names.1 ofKey sync₀
        (keys.mono (List.Subset.refl _) sub) heldKey (ok_bind.2 ⟨_, f₁, m₁, keyBound, keyLooked⟩)
    obtain ⟨maps₂, g₂, p₂, sub₂, run₂, sync₂, -⟩ :=
      prelude_simulates rounds sound agrees kinds hv fits.2 names.2 ofValue sync₁
        (values.mono (List.Subset.refl _) (List.Subset.trans sub sub₁))
        (fun y hy named => (heldValue y hy named).imp_right fun get =>
          (keeps₁ y (heldValue y hy named).1).trans get)
        (ok_bind.2 ⟨_, f₄, m₄, valueBound, valueLooked⟩)
    obtain ⟨maps₃, flow', g₃, p₃, sub₃, run₃, sync₃, rel⟩ :=
      body.run (List.Subset.trans (List.Subset.trans sub sub₁) sub₂) sync₂ inner
    refine ⟨maps₃, flow', g₃.pop.pop, p₃, List.Subset.trans (List.Subset.trans sub₁ sub₂) sub₃,
      ok_inScope.2 ⟨g₃.pop, ?_, rfl⟩, sync₃.pop.pop, rel⟩
    refine ok_bind.2 ⟨(), _, _, ok_bindItem_define plainKey, ok_bind.2 ⟨(), _, _,
      ok_bindItem_define plainValue, ok_inScope.2 ⟨g₃, ?_, rfl⟩⟩⟩
    rw [steps_append, List.append_assoc, sequence_append_of_ok run₁, sequence_append_of_ok run₂]
    exact run₃

omit kinds in
-- A target that is no field stays what the loop assigns to.
theorem bindItem_kept {e : Option Expr} {t : Option Target}
    (ht : r.targets c e.toList = .ok t.toList) (noField : ∀ target ∈ t, target.isField = false)
    (fits : ∀ target ∈ e, target.Fits u) (names : ∀ target ∈ e, target.names ⊆ N)
    (hv : Value.Alike S.loose base v v') :
    Simulates S N base (bindItem S.source call false v e)
      (bindItem S.target S.call false v' (e.bind fun written => t.map (·.place written)))
      fun _ _ _ => True := by
  rw [RedirectContext.targets, ok_mapM] at ht
  cases e with
  | none => exact .pure fun _ _ => trivial
  | some e =>
    cases t with
    | none => cases ht
    | some t =>
      cases ht with
      | cons head =>
        refine ⟨fun {_ maps f m f' m' x f₁ m₁} sub sync run => ?_⟩
        obtain ⟨maps₁, place', m'₂, f'₁, m'₁, sub₁, resolved, written, states, inKind, -⟩ :=
          write_kept sound agrees sync (hv.mono (List.Subset.refl _) sub) head (noField t rfl)
            (fits e rfl) (names e rfl) run
        exact ⟨maps₁, (), f'₁, m'₁, sub₁, ok_bindItem_assign.2 ⟨place', m'₂, resolved, written⟩,
          ⟨states, inKind, (bindItem_assign_depth run).trans sync.depth⟩, trivial⟩

end

theorem bindItem_defined {e : Option Expr}
    (named : ∀ target ∈ e, ∃ x, target.ident? = some x ∧ S.receiver ≠ some x)
    (hv : Value.Alike S.loose base v v') :
    Simulates S N base (bindItem S.source call true v e) (bindItem S.target S.call true v' e)
      fun _ _ _ => True := by
  cases e with
  | none => exact .pure fun _ _ => trivial
  | some e =>
    obtain ⟨x, hx, other⟩ := named e rfl
    simp only [bindItem, hx]
    exact define_simulates other hv

-- Keys and values that correspond.
structure ItemAlike (S : Sides) (maps : List (Nat × Nat)) (a b : Value × Value) : Prop where
  key : Value.Alike S.loose maps a.1 b.1
  value : Value.Alike S.loose maps a.2 b.2

theorem ItemAlike.mono {maps₁ : List (Nat × Nat)} {a b : Value × Value} (h : ItemAlike S maps a b)
    (sub : maps ⊆ maps₁) : ItemAlike S maps₁ a b :=
  ⟨h.key.mono (List.Subset.refl _) sub, h.value.mono (List.Subset.refl _) sub⟩

-- The items of values that correspond.
theorem itemsOf_simulates (h : Value.Alike S.loose base v v') :
    Simulates S N base (liftM (itemsOf v)) (liftM (itemsOf v')) fun maps =>
      List.Forall₂ (ItemAlike S maps) := by
  cases h with
  | @slice as bs items =>
    refine .pure fun maps sub => ?_
    replace items := Value.alikeItems_iff.1 items
    rw [List.forall₂_map_left_iff, List.forall₂_map_right_iff]
    suffices ∀ n, List.Forall₂ (fun a b => Value.Alike S.loose maps a.1 b.1 ∧ a.2 = b.2)
        (as.zipIdx n) (bs.zipIdx n) from
      (this 0).imp fun (_, i) (_, _) ⟨alike, (same : i = _)⟩ => ⟨same ▸ .int _, alike⟩
    induction items with
    | nil => exact fun _ => .nil
    | cons head _ ih => exact fun n => .cons ⟨head.mono (List.Subset.refl _) sub, rfl⟩ (ih (n + 1))
  | @map a b mem =>
    refine ⟨fun {_ maps f m f' m' items f₁ m₁} sub sync run => ?_⟩
    obtain ⟨got, rfl⟩ := ok_lift.1 run
    simp only [itemsOf, Exec.ok_bind, Exec.ok_get, Exec.ok_pure] at got
    obtain ⟨_, _, ⟨rfl, rfl⟩, rfl, rfl⟩ := got
    refine ⟨maps, _, f', m', List.Subset.refl _, ok_lift.2 ⟨rfl, rfl⟩, sync, ?_⟩
    have alike := sync.tables.alike _ (sub mem)
    rw [List.forall₂_map_left_iff, List.forall₂_map_right_iff]
    exact alike.imp fun e e' ⟨same, hv⟩ => ⟨same ▸ .toValue _, hv⟩
  | int count =>
    refine .pure fun maps _ => List.forall₂_same.2 fun e he => ?_
    obtain ⟨i, -, rfl⟩ := List.mem_map.1 he
    exact ⟨.int _, .nil⟩
  | nil => exact .pure fun _ _ => .nil
  | _ => exact .of_fails fun _ _ _ _ _ run => (Exec.ok_failType.1 (ok_lift.1 run).1).elim

end Step

-- A variable of a loop over items: declared by the loop, or any target that fits.
def Usage.Binds (u : Usage) (define : Bool) (e : Expr) : Prop :=
  if define then ∃ x, e.ident? = some x ∧ u.Free x else e.Fits u

namespace Step

variable {S : Sides} {N : List String} {u : Usage} {r : RedirectContext} {c inner : TypeContext}
  {call : CallHandler} {holds : Machine → Bool} (rounds : Nat) (sound : S.Sound)
  (agrees : ∀ f f' m, u.Agrees r c (S.view N f f' m))
  (within : ∀ f f' m, u.Agrees r inner (S.view N f f' m))
  (kinds : ∀ m, holds m = true → S.InKind m) {temps temps' : Temporaries}
  (covers : N ⊆ temps.taken)

include sound agrees within kinds covers

-- A loop over items, with the statements of its body and those that they become.
theorem range_simulates {span : Span} {key value : Option Expr} {define : Bool} {iterable : Expr}
    {t : TypedExpr} (ht : r.value c iterable = .ok t) (fits : iterable.Fits u)
    (names : iterable.names ⊆ N)
    (binds : (∀ e ∈ key, u.Binds define e) ∧ ∀ e ∈ value, u.Binds define e)
    (named : (∀ e ∈ key, e.names ⊆ N) ∧ ∀ e ∈ value, e.names ⊆ N) {head : RangeHeader}
    (h : if define then head = ⟨key, value, true, []⟩ ∧ temps = temps'
      else r.rangeHeader inner span key value t.type temps = .ok (head, temps')) {at_ : Span}
    {body body' : List Stmt}
    (simulates : Simulates S N [] (sequence (watchedSteps S.source call rounds holds body))
      (sequence (steps S.target S.call rounds body')) (Flow.Alike S)) :
    Simulates S N [] (watched S.source call rounds holds
        (.range span key value define iterable (.mk at_ body)))
      (exec S.target S.call rounds (.range span head.key head.value head.define t.expr
        (.mk at_ (head.prelude ++ body')))) (Flow.Alike S) := by
  rw [watched, exec]
  refine .bind (eval_simulates sound agrees ht fits names) fun maps v v' _ hv =>
    .bind (itemsOf_simulates hv) fun maps items items' _ hitems => ?_
  refine .forEach hitems (fun sub h => ItemAlike.mono h sub) fun maps item item' _ hitem => ?_
  -- Where no field is written, nothing has to be watched.
  have unwatched {x x' y y' : Step Unit} {k k' : Step Flow}
      (h : Simulates S N maps (inScope (do x; y; k)) (inScope (do x'; y'; k')) (Flow.Alike S)) :
      Simulates S N maps (inScope (do x; watch holds; y; watch holds; k))
        (inScope (do x'; y'; k')) (Flow.Alike S) :=
    h.of_mayStop (.inScope (.bind (.refl _) fun _ => .watch (.bind (.refl _) fun _ =>
      .watch (.refl _))))
  have whole {maps : List (Nat × Nat)} : Simulates S N maps
      (watchedBlock S.source call rounds holds (.mk at_ body))
      (execBlock S.target S.call rounds (.mk at_ body')) (Flow.Alike S) :=
    .inScope (simulates.mono (List.nil_subset _) fun _ _ _ _ h => h)
  cases define with
  | true =>
    obtain ⟨rfl, rfl⟩ := h
    have declared {e : Expr} (binds : u.Binds true e) :
        ∃ x, e.ident? = some x ∧ S.receiver ≠ some x := by
      obtain ⟨x, hx, free⟩ := binds
      exact ⟨x, hx, (agrees default default default).receiver ▸ free.receiver⟩
    refine unwatched (.inScope ?_)
    refine .bind (bindItem_defined (fun e he => declared (binds.1 e he)) hitem.key)
      fun _ _ _ sub _ => ?_
    exact .bind (bindItem_defined (fun e he => declared (binds.2 e he))
      (hitem.value.mono (List.Subset.refl _) sub)) fun _ _ _ _ _ => whole
  | false =>
    simp only [RedirectContext.rangeHeader, Redirecting.ok_bind, RedirectContext.ok_mapM_target] at h
    obtain ⟨kt, _, ⟨hk, rfl⟩, vt, _, ⟨hvt, rfl⟩, h⟩ := h
    split at h
    case isTrue =>
      simp only [Redirecting.ok_bind, Redirecting.ok_pure] at h
      obtain ⟨⟨newKey, first⟩, temps₁, ofKey, ⟨newValue, second⟩, temps₂, ofValue, rfl, rfl⟩ := h
      dsimp only
      rw [execBlock, steps_append]
      exact round_simulates rounds sound within kinds hk hvt binds named covers ofKey ofValue
        hitem.key hitem.value (simulates.mono (List.nil_subset _) fun _ _ _ _ h => h)
    case isFalse none =>
      obtain ⟨rfl, rfl⟩ := Redirecting.ok_pure.1 h
      simp only [Bool.or_eq_true, Option.any_eq_true, not_or, not_exists, not_and,
        Bool.not_eq_true] at none
      refine unwatched (.inScope ?_)
      refine .bind (bindItem_kept sound within hk none.1 binds.1 named.1 hitem.key)
        fun _ _ _ sub _ => ?_
      exact .bind (bindItem_kept sound within hvt none.2 binds.2 named.2
        (hitem.value.mono (List.Subset.refl _) sub)) fun _ _ _ _ _ => whole

end Step

end FieldAccess
