import FieldAccess.Eval.Place
import FieldAccess.Eval.Stmt
import FieldAccess.Proofs.Mimics

namespace FieldAccess

theorem Sides.seen_of_ne {S : Sides} {x : String} (h : S.receiver ≠ some x) :
    S.seen x = S.loose :=
  if_neg h

section

variable (S : Sides) (N : List String) (maps : List (Nat × Nat))

-- The variables of a scope.
def ScopeAlike (s s' : Table String) : Prop :=
  ∀ x ∈ N, Option.Rel (Value.Alike (S.seen x) maps) (s.get? x) (s'.get? x)

-- Machines with the same package variables and maps, and with records that store what the plain
-- objects have.
structure Machines (m m' : Machine) : Prop where
  globals : ScopeAlike S N maps m.globals m'.globals
  tables : MapsAlike S.loose maps m m'
  mirrored : ∀ t ∈ S.twins, t.Mirrored S.catalog S.loose maps m m'

abbrev ScopesAlike : List (Table String) → List (Table String) → Prop :=
  List.Forall₂ (ScopeAlike S N maps)

-- Frames and machines of the two runs.
structure States (f : Frame) (m : Machine) (f' : Frame) (m' : Machine) : Prop extends
    Machines S N maps m m' where
  scopes : ScopesAlike S N maps f.scopes f'.scopes

-- The fields hold values of their kinds.
def Sides.InKind (m : Machine) : Prop :=
  ∀ t ∈ S.twins, t.InKind S.catalog m

end

variable {S : Sides} {N : List String} {depth : Nat} {maps maps' : List (Nat × Nat)} {f f' : Frame}
  {m m₁ m' m'₁ : Machine} {x : String} {v v' : Value}

section

variable {s s' : Table String}

theorem ScopeAlike.mono (h : ScopeAlike S N maps s s') (sub : maps ⊆ maps') :
    ScopeAlike S N maps' s s' :=
  fun x hx => rel_imp (fun _ _ => Value.Alike.mono (List.Subset.refl _) sub) (h x hx)

theorem ScopeAlike.empty : ScopeAlike S N maps .empty .empty :=
  fun _ _ => .none

theorem ScopeAlike.contains_eq (h : ScopeAlike S N maps s s') (hx : x ∈ N) :
    s.contains x = s'.contains x :=
  isSome_eq_of_rel (h x hx)

theorem ScopeAlike.insert (h : ScopeAlike S N maps s s')
    (hv : Value.Alike (S.seen x) maps v v') :
    ScopeAlike S N maps (s.insert x v) (s'.insert x v') := by
  intro y hy
  rw [Table.get?_insert, Table.get?_insert]
  split
  case isTrue e => exact .some (e ▸ hv)
  case isFalse => exact h y hy

-- A variable that does not count may be set on one side alone.
theorem ScopeAlike.insert_right (h : ScopeAlike S N maps s s') (hx : x ∉ N) :
    ScopeAlike S N maps s (s'.insert x v') := by
  intro y hy
  rw [Table.get?_insert, if_neg (by grind)]
  exact h y hy

theorem ScopesAlike.mono {ss ss' : List (Table String)} (h : ScopesAlike S N maps ss ss')
    (sub : maps ⊆ maps') : ScopesAlike S N maps' ss ss' :=
  List.Forall₂.imp (fun _ _ h => h.mono sub) h

theorem ScopesAlike.get? (h : ScopesAlike S N maps f.scopes f'.scopes) (hx : x ∈ N) :
    Option.Rel (Value.Alike (S.seen x) maps) (f.get? x) (f'.get? x) := by
  obtain ⟨ss⟩ := f
  obtain ⟨ss'⟩ := f'
  simp only [Frame.get?] at h ⊢
  induction h with
  | nil => exact .none
  | @cons s s' _ _ head _ ih =>
    have rel := head x hx
    simp only [List.findSome?_cons]
    cases hs : s.get? x with
    | none =>
      cases hs' : s'.get? x with
      | none => exact ih
      | some _ => simp [hs, hs'] at rel
    | some _ =>
      cases hs' : s'.get? x with
      | none => simp [hs, hs'] at rel
      | some _ => simpa [hs, hs'] using rel

theorem ScopesAlike.assign (h : ScopesAlike S N maps f.scopes f'.scopes) (hx : x ∈ N)
    (hv : Value.Alike (S.seen x) maps v v') :
    ScopesAlike S N maps (f.assign x v).scopes (f'.assign x v').scopes := by
  obtain ⟨ss⟩ := f
  obtain ⟨ss'⟩ := f'
  simp only [Frame.assign] at h ⊢
  induction h with
  | nil => exact .nil
  | @cons s s' _ _ head tail ih =>
    simp only [Frame.assignIn, ← head.contains_eq hx]
    split
    · exact .cons (head.insert hv) tail
    · exact .cons head ih

theorem ScopesAlike.define (h : ScopesAlike S N maps f.scopes f'.scopes)
    (hv : Value.Alike (S.seen x) maps v v') :
    ScopesAlike S N maps (f.define x v).scopes (f'.define x v').scopes := by
  obtain ⟨ss⟩ := f
  obtain ⟨ss'⟩ := f'
  by_cases hx : x = "_"
  · simpa [Frame.define, hx] using h
  · simp only [Frame.define, if_neg hx] at h ⊢
    cases h with
    | nil => exact .nil
    | cons head tail => exact .cons (head.insert hv) tail

-- A temporary does not count.
theorem ScopesAlike.define_right (h : ScopesAlike S N maps f.scopes f'.scopes) (hx : x ∉ N) :
    ScopesAlike S N maps f.scopes (f'.define x v').scopes := by
  obtain ⟨ss⟩ := f
  obtain ⟨ss'⟩ := f'
  by_cases blank : x = "_"
  · simpa [Frame.define, blank] using h
  · simp only [Frame.define, if_neg blank] at h ⊢
    cases h with
    | nil => exact .nil
    | cons head tail => exact .cons (head.insert_right hx) tail

theorem ScopesAlike.push (h : ScopesAlike S N maps f.scopes f'.scopes) :
    ScopesAlike S N maps f.push.scopes f'.push.scopes :=
  .cons .empty h

theorem ScopesAlike.pop (h : ScopesAlike S N maps f.scopes f'.scopes) :
    ScopesAlike S N maps f.pop.scopes f'.pop.scopes := by
  obtain ⟨ss⟩ := f
  obtain ⟨ss'⟩ := f'
  simp only [Frame.pop] at h ⊢
  cases h with
  | nil => exact .nil
  | cons _ tail => exact tail

end

theorem Machines.mono (h : Machines S N maps m m') (sub : maps ⊆ maps') (left : m.Grows m₁)
    (right : m'.Grows m'₁) (tables : MapsAlike S.loose maps' m₁ m'₁) :
    Machines S N maps' m₁ m'₁ where
  globals := by
    rw [left.globals, right.globals]
    exact h.globals.mono sub
  tables := tables
  mirrored t ht := (h.mirrored t ht).grow left right sub

-- Setting an item of a map that both sides have.
theorem Machines.setMap (h : Machines S N maps m m') {a b : Nat} (mem : (a, b) ∈ maps)
    (key : MapKey) (hv : Value.Alike S.loose maps v v') :
    Machines S N maps (m.setMap a ((m.map a).insert key v))
      (m'.setMap b ((m'.map b).insert key v')) where
  globals := h.globals
  tables := h.tables.set mem ((h.tables.alike _ mem).insert key hv)
  mirrored t ht := by
    have mirrored := h.mirrored t ht
    exact ⟨⟨mirrored.wrapper, mirrored.record, mirrored.type, mirrored.holds⟩, mirrored.object,
      mirrored.data⟩

theorem Machines.setGlobal (h : Machines S N maps m m')
    (hv : Value.Alike (S.seen x) maps v v') :
    Machines S N maps (m.setGlobal x v) (m'.setGlobal x v') where
  globals := h.globals.insert hv
  tables := h.tables.of_maps_eq rfl rfl
  mirrored t ht := by
    have mirrored := h.mirrored t ht
    exact ⟨⟨mirrored.wrapper, mirrored.record, mirrored.type, mirrored.holds⟩, mirrored.object,
      mirrored.data⟩

theorem States.mono (h : States S N maps f m f' m') (sub : maps ⊆ maps') (left : m.Grows m₁)
    (right : m'.Grows m'₁) (tables : MapsAlike S.loose maps' m₁ m'₁) :
    States S N maps' f m₁ f' m'₁ where
  toMachines := h.toMachines.mono sub left right tables
  scopes := h.scopes.mono sub

theorem States.var? (h : States S N maps f m f' m') (hx : x ∈ N) :
    Option.Rel (Value.Alike (S.seen x) maps) (f.var? m x) (f'.var? m' x) := by
  have inFrame := h.scopes.get? hx
  have inPackage := h.globals x hx
  simp only [Frame.var?]
  cases hf : f.get? x <;> cases hf' : f'.get? x <;> simp [hf, hf'] at inFrame ⊢
  · exact inPackage
  · exact inFrame

-- The view of an evaluation that starts in states that correspond.
def Sides.view (S : Sides) (N : List String) (f f' : Frame) (m : Machine) : View :=
  ⟨S, true, N, f, f', m⟩

theorem States.ready (h : States S N maps f m f' m') (grows : m.Grows m₁) (kinds : S.InKind m) :
    (S.view N f f' m₁).Ready maps m' where
  tables := h.tables.grow_left grows
  vars x hx v hv := by
    have rel := h.var? hx
    rw [← grows.var?] at rel
    change f.var? m₁ x = some v at hv
    rw [hv] at rel
    cases hv' : f'.var? m' x with
    | none => simp [hv'] at rel
    | some v' =>
      rw [hv', Option.rel_some_some] at rel
      exact ⟨v', hv', rel⟩
  mirrored _ t ht := (h.mirrored t ht).grow grows (.refl _) (List.Subset.refl _)
  inKind _ t ht := by
    intro name info k stores
    obtain ⟨v, hv, kind⟩ := kinds t ht stores
    refine ⟨v, ?_, kind⟩
    change (m₁.object t.object).fields.get? name = some v
    rw [grows.object _ (h.mirrored t ht).object]
    exact hv

theorem Sides.InKind.grow (h : S.InKind m) (grows : m.Grows m₁)
    (bounded : ∀ t ∈ S.twins, t.object < m.objects.size) : S.InKind m₁ := by
  intro t ht name info k stores
  obtain ⟨v, hv, kind⟩ := h t ht stores
  exact ⟨v, by rw [grows.object _ (bounded t ht)]; exact hv, kind⟩

-- States that correspond while statements run: the fields are of their kinds, and there are scopes
-- for new variables, one and as many around it as the depth says.
structure Sync (S : Sides) (N : List String) (depth : Nat) (maps : List (Nat × Nat)) (f : Frame)
    (m : Machine) (f' : Frame) (m' : Machine) : Prop extends States S N maps f m f' m' where
  inKind : S.InKind m
  depth : f.scopes.length = depth + 1

theorem Sync.push (h : Sync S N depth maps f m f' m') :
    Sync S N (depth + 1) maps f.push m f'.push m' where
  toMachines := h.toMachines
  scopes := h.scopes.push
  inKind := h.inKind
  depth := by simp [Frame.push, h.depth]

theorem Sync.pop (h : Sync S N (depth + 1) maps f m f' m') : Sync S N depth maps f.pop m f'.pop m' where
  toMachines := h.toMachines
  scopes := h.scopes.pop
  inKind := h.inKind
  depth := by simp [Frame.pop, h.depth]

-- Ends of statements that correspond.
inductive Flow.Alike (S : Sides) (maps : List (Nat × Nat)) : Flow → Flow → Prop
  | next : Alike S maps .next .next
  | breaks : Alike S maps .breaks .breaks
  | continues : Alike S maps .continues .continues
  | returns {vs vs' : List Value} : List.Forall₂ (Value.Alike S.loose maps) vs vs' →
      Alike S maps (.returns vs) (.returns vs')

namespace Step

variable {base base' : List (Nat × Nat)} {α β γ δ : Type}

-- Whenever the step on plain objects succeeds, so does the one on wrappers.
structure Simulates (S : Sides) (N : List String) (base : List (Nat × Nat)) (x : Step α)
    (x' : Step β) (R : List (Nat × Nat) → α → β → Prop) : Prop where
  run : ∀ {depth maps f m f' m' a f₂ m₂}, base ⊆ maps → Sync S N depth maps f m f' m' →
    x f m = .ok (a, f₂) m₂ →
    ∃ maps₂ b f'₂ m'₂, maps ⊆ maps₂ ∧ x' f' m' = .ok (b, f'₂) m'₂ ∧
      Sync S N depth maps₂ f₂ m₂ f'₂ m'₂ ∧ R maps₂ a b

theorem sequence_append (xs ys : List (Step Flow)) :
    sequence (xs ++ ys) = do
      match ← sequence xs with
      | .next => sequence ys
      | flow => return flow := by
  induction xs with
  | nil => rfl
  | cons x xs ih =>
    funext f m
    simp only [List.cons_append, sequence, ih, bind, StateT.bind, EStateM.bind]
    cases x f m with
    | error => rfl
    | ok p m₁ =>
      obtain ⟨flow, f₁⟩ := p
      cases flow <;> rfl

-- Once some steps are through, the others run.
theorem sequence_append_of_ok {xs : List (Step Flow)} {f f₁ : Frame} {m m₁ : Machine}
    (h : sequence xs f m = .ok (.next, f₁) m₁) (ys : List (Step Flow)) :
    sequence (xs ++ ys) f m = sequence ys f₁ m₁ := by
  rw [sequence_append]
  simp only [bind, StateT.bind, EStateM.bind, h]

theorem steps_append (p : Program) (call : CallHandler) (rounds : Nat) (as bs : List Stmt) :
    steps p call rounds (as ++ bs) = steps p call rounds as ++ steps p call rounds bs := by
  induction as with
  | nil => rfl
  | cons a as ih => rw [List.cons_append, steps, steps, ih, List.cons_append]

theorem sequence_single (x : Step Flow) : sequence [x] = x := by
  funext f m
  simp only [sequence, bind, StateT.bind, EStateM.bind]
  cases x f m with
  | error => rfl
  | ok p m₁ =>
    obtain ⟨flow, f₁⟩ := p
    cases flow <;> rfl

namespace Simulates

variable {x : Step α} {x' : Step β} {R R' : List (Nat × Nat) → α → β → Prop}

theorem mono (h : Simulates S N base x x' R) (sub : base ⊆ base')
    (imp : ∀ maps a b, base' ⊆ maps → R maps a b → R' maps a b) :
    Simulates S N base' x x' R' where
  run sub' sync run := by
    obtain ⟨maps₂, b, f'₂, m'₂, grown, run', sync', rel⟩ :=
      h.run (List.Subset.trans sub sub') sync run
    exact ⟨maps₂, b, f'₂, m'₂, grown, run', sync', imp _ _ _ (List.Subset.trans sub' grown) rel⟩

theorem pure {a : α} {b : β} (h : ∀ maps, base ⊆ maps → R maps a b) :
    Simulates S N base (pure a) (pure b) R where
  run {_ maps f m f' m' c f₂ m₂} sub sync run := by
    obtain ⟨rfl, rfl, rfl⟩ := ok_pure.1 run
    exact ⟨maps, b, f', m', List.Subset.refl _, rfl, sync, h _ sub⟩

theorem bind {k : α → Step γ} {k' : β → Step δ} {Q : List (Nat × Nat) → γ → δ → Prop}
    (hx : Simulates S N base x x' R)
    (hk : ∀ maps a b, base ⊆ maps → R maps a b → Simulates S N maps (k a) (k' b) Q) :
    Simulates S N base (x >>= k) (x' >>= k') Q where
  run sub sync run := by
    obtain ⟨a, f₁, m₁, run₁, run₂⟩ := ok_bind.1 run
    obtain ⟨maps₁, b, f'₁, m'₁, sub₁, run'₁, sync₁, rel⟩ := hx.run sub sync run₁
    obtain ⟨maps₂, d, f'₂, m'₂, sub₂, run'₂, sync₂, rel₂⟩ :=
      (hk _ a b (List.Subset.trans sub sub₁) rel).run (List.Subset.refl _) sync₁ run₂
    exact ⟨maps₂, d, f'₂, m'₂, List.Subset.trans sub₁ sub₂,
      ok_bind.2 ⟨b, f'₁, m'₁, run'₁, run'₂⟩, sync₂, rel₂⟩

-- What cannot succeed is simulated by anything.
theorem of_fails (h : ∀ f m a f₂ m₂, x f m ≠ .ok (a, f₂) m₂) : Simulates S N base x x' R where
  run _ _ run := absurd run (h _ _ _ _ _)

theorem fail (fault : ExecFault) : Simulates S N base (Exec.fail fault) x' R :=
  of_fails fun _ _ _ _ _ h => Exec.ok_fail.1 (ok_lift.1 h).1

-- Evaluation without calls.
theorem reading {e : Frame → Exec α} {e' : Frame → Exec β}
    (allocates : ∀ f, Exec.OnlyAllocates (e f))
    (h : ∀ f f' m, Exec.Mimics (S.view N f f' m) base (e f) (e' f') R) :
    Simulates S N base (reading e) (reading e') R where
  run {_ maps f m f' m' a f₂ m₂} sub sync run := by
    obtain ⟨got, rfl⟩ := ok_reading.1 run
    have grows := (allocates f).grows got
    obtain ⟨b, m'₁, ext, got', grows', _, tables, rel⟩ :=
      (h f f' m₂).run got (.refl _) sub (fun p hp => (sync.tables.bounded p hp).1)
        (sync.ready grows sync.inKind)
    refine ⟨ext ++ maps, b, f', m'₁, List.subset_append_right .., ok_reading.2 ⟨got', rfl⟩, ?_, rel⟩
    have bounded : ∀ t ∈ S.twins, t.object < m.objects.size := fun t ht => (sync.mirrored t ht).object
    exact {
      toStates := sync.toStates.mono (List.subset_append_right ..) grows grows' tables
      inKind := sync.inKind.grow grows bounded
      depth := sync.depth }

theorem inScope (h : Simulates S N base x x' R) :
    Simulates S N base (inScope x) (inScope x') R where
  run sub sync run := by
    obtain ⟨f₁, got, rfl⟩ := ok_inScope.1 run
    obtain ⟨maps₁, b, f'₁, m'₁, sub₁, got', sync₁, rel⟩ := h.run sub sync.push got
    exact ⟨maps₁, b, f'₁.pop, m'₁, sub₁, ok_inScope.2 ⟨f'₁, got', rfl⟩, sync₁.pop, rel⟩

theorem base_mono (h : Simulates S N base x x' R) (sub : base ⊆ base') :
    Simulates S N base' x x' R :=
  h.mono sub fun _ _ _ _ rel => rel

-- Rounds, as long as the conditions agree.
theorem loop {cond cond' : Step Bool} {body body' post post' : Step Flow}
    (hcond : Simulates S N base cond cond' fun _ b b' => b = b')
    (hbody : Simulates S N base body body' (Flow.Alike S))
    (hpost : Simulates S N base post post' fun _ _ _ => True) (rounds : Nat) :
    Simulates S N base (loop cond body post rounds) (loop cond' body' post' rounds)
      (Flow.Alike S) := by
  induction rounds generalizing base with
  | zero => exact fail _
  | succ rounds ih =>
    rw [Step.loop, Step.loop]
    refine bind hcond fun maps₁ b _ sub₁ hb => ?_
    subst hb
    cases b with
    | false => exact pure fun _ _ => .next
    | true =>
      refine bind (hbody.base_mono sub₁) fun maps₂ flow flow' sub₂ hflow => ?_
      have sub := List.Subset.trans sub₁ sub₂
      have again : Simulates S N maps₂ (do let _ ← post; Step.loop cond body post rounds)
          (do let _ ← post'; Step.loop cond' body' post' rounds) (Flow.Alike S) :=
        bind (hpost.base_mono sub) fun maps₃ _ _ sub₃ _ =>
          have sub := List.Subset.trans sub sub₃
          ih (hcond.base_mono sub) (hbody.base_mono sub) (hpost.base_mono sub)
      cases hflow with
      | next => exact again
      | continues => exact again
      | breaks => exact pure fun _ _ => .next
      | returns hs =>
        exact pure fun _ h => .returns (hs.imp fun _ _ hv => hv.mono (List.Subset.refl _) h)

-- One round for each item.
theorem forEach {round : α → Step Flow} {round' : β → Step Flow} {as : List α} {bs : List β}
    {Q : List (Nat × Nat) → α → β → Prop} (items : List.Forall₂ (Q base) as bs)
    (keep : ∀ {maps maps' a b}, maps ⊆ maps' → Q maps a b → Q maps' a b)
    (h : ∀ maps a b, base ⊆ maps → Q maps a b →
      Simulates S N maps (round a) (round' b) (Flow.Alike S)) :
    Simulates S N base (forEach round as) (forEach round' bs) (Flow.Alike S) := by
  induction as generalizing base bs with
  | nil =>
    cases items
    exact pure fun _ _ => .next
  | cons a as ih =>
    cases items with
    | @cons _ b _ bs head tail =>
      rw [Step.forEach, Step.forEach]
      refine bind (h base a b (List.Subset.refl _) head) fun maps₁ flow flow' sub₁ hflow => ?_
      have again : Simulates S N maps₁ (Step.forEach round as) (Step.forEach round' bs)
          (Flow.Alike S) :=
        ih (tail.imp fun _ _ => keep sub₁) fun maps a b sub =>
          h maps a b (List.Subset.trans sub₁ sub)
      cases hflow with
      | next => exact again
      | continues => exact again
      | breaks => exact pure fun _ _ => .next
      | returns hs =>
        exact pure fun _ h => .returns (hs.imp fun _ _ hv => hv.mono (List.Subset.refl _) h)

-- A statement may become several.
theorem append {x : Step Flow} {xs' rest rest' : List (Step Flow)}
    (hx : Simulates S N base x (sequence xs') (Flow.Alike S))
    (hrest : Simulates S N base (sequence rest) (sequence rest') (Flow.Alike S)) :
    Simulates S N base (sequence (x :: rest)) (sequence (xs' ++ rest')) (Flow.Alike S) := by
  rw [sequence, sequence_append]
  refine bind hx fun maps flow flow' sub hflow => ?_
  cases hflow with
  | next => exact hrest.base_mono sub
  | continues => exact pure fun _ _ => .continues
  | breaks => exact pure fun _ _ => .breaks
  | returns hs =>
    exact pure fun _ h => .returns (hs.imp fun _ _ hv => hv.mono (List.Subset.refl _) h)

end Simulates

end Step

end FieldAccess
