import FieldAccess.Proofs.AssignStages
import FieldAccess.Proofs.TemporaryNames

namespace FieldAccess

-- A target that is a variable or a selector.
structure Expr.IsSimpleTarget (e : Expr) : Prop where
  shape : (∃ x, e.unparen.ident? = some x) ∨
    ∃ span base member, e.unparen = .select span base member

-- The place of a target: nothing, a variable, or a field of the object in a variable.
inductive Denotes (S : Sides) (N : List String) (f' : Frame) (m' : Machine) : Target → Place → Prop
  | blank : Denotes S N f' m' .blank .blank
  | named {span : Span} {x : String} : x ∈ N → x ≠ "_" → S.receiver ≠ some x →
      Denotes S N f' m' (.plain (.ident span x)) (.named x)
  | field {receiver : Expr} {info : FieldInfo} {t : Twin} {name y : String} {k : BasicKind} :
      t ∈ S.seen y → S.catalog.Stores t.entity name info k → receiver.unparen.ident? = some y →
      y ∈ N → f'.var? m' y = some (.object t.wrapper) →
      Denotes S N f' m' (.field receiver info) (.field t.object name)

section

variable {r : RedirectContext} {c : TypeContext} {u : Usage} {S : Sides} {N : List String}
  {f f' : Frame} {m m₁ m' : Machine} {call : CallHandler} {maps : List (Nat × Nat)}
  (sound : S.Sound) (agrees : u.Agrees r c (S.view N f f' m₁))

include sound agrees

theorem denotes_of_resolve {e : Expr} {t : Target} {place : Place} {lo hi : Machine}
    (h : r.target c e = .ok t) (simple : e.IsSimpleTarget) (fits : e.Fits u) (names : e.names ⊆ N)
    (ready : (S.view N f f' m₁).Ready maps m') (below : Below maps lo.maps.size)
    (grows : hi.Grows m₁) (run : Place.resolve S.source call f e lo = .ok place hi) :
    Denotes S N f' m' t place ∧ lo = hi := by
  rw [Expr.fits_unparen] at fits
  rw [Expr.names_unparen] at names
  rw [Place.resolve_unparen] at run
  rw [RedirectContext.target_unparen] at h
  rcases simple.shape with ⟨x, hx⟩ | ⟨span, base, member, he⟩
  · cases he : e.unparen <;> simp only [he, Expr.ident?, reduceCtorEq, Option.some.injEq] at hx
    subst hx
    rw [he] at fits names run h
    obtain ⟨hp, hm⟩ := Exec.ok_pure.1 run
    refine ⟨?_, hm⟩
    have h := ok_pure.1 h
    subst hp h
    rename_i span x
    by_cases blank : x = "_"
    · subst blank
      exact .blank
    · simp only [Expr.isBlank, Expr.ident?, Option.some.injEq, blank, decide_false,
        Bool.false_eq_true, if_false]
      exact .named (names (by simp [Expr.names])) blank (agrees.receiver ▸ fits)
  · rw [he] at fits names run h
    rcases fits with ⟨x, hx, hf⟩ | ⟨strays, fits⟩
    · have mem : x ∈ N := names (show x ∈ base.names from Expr.mem_names_of_unparen hx)
      obtain ⟨t, seen, info, k, hp, stores, same, _, var, known⟩ :=
        Place.field_of_select (w := S.view N f f' m₁) agrees hx hf mem run grows ready
      obtain ⟨type, known, resolves⟩ := known span
      simp only [RedirectContext.target, RedirectContext.value_of_unparen hx, known,
        Option.map_some, FieldAccess.ok_bind, Except.ok.injEq, exists_eq_left', resolves] at h
      subst hp
      obtain rfl := ok_pure.1 h
      exact ⟨.field seen stores hx mem var, same.symm⟩
    · exfalso
      rw [RedirectContext.target] at h
      obtain ⟨tb, hb, _⟩ := ok_bind.1 h
      rw [Place.resolve] at run
      obtain ⟨v, mid, run, selected⟩ := Exec.ok_bind.1 run
      have grows' : mid.Grows hi := by
        cases v with
        | object => exact (Exec.ok_pure.1 selected).2 ▸ .refl _
        | nil => exact (Exec.ok_fail.1 selected).elim
        | _ => exact (Exec.ok_fail.1 selected).elim
      have mimics : Exec.Mimics (S.view N f f' m₁) maps (Exec.eval S.source call f base)
          (Exec.eval S.target S.call f' tb.expr) (S.view N f f' m₁).Alike :=
        Exec.eval_mimics sound agrees base hb fits names (.inl rfl)
      obtain ⟨v', _, _, _, _, _, _, alike⟩ :=
        mimics.run run (grows'.trans grows) (List.Subset.refl _) below ready
      simp only [View.Alike, agrees.strays strays] at alike
      cases alike with
      | object mem => cases mem
      | _ => exact (Exec.ok_fail.1 selected).elim

theorem denotes_of_resolveEach {es : List Expr} {ts : List Target} {places : List Place}
    {lo hi : Machine} (h : List.Forall₂ (fun e t => r.target c e = .ok t) es ts)
    (simple : ∀ e ∈ es, e.IsSimpleTarget) (fits : ∀ e ∈ es, e.Fits u)
    (names : ∀ e ∈ es, e.names ⊆ N) (ready : (S.view N f f' m₁).Ready maps m')
    (below : Below maps lo.maps.size) (grows : hi.Grows m₁)
    (run : Place.resolveEach S.source call f es lo = .ok places hi) :
    List.Forall₂ (Denotes S N f' m') ts places ∧ lo = hi := by
  induction h generalizing lo places with
  | nil =>
    obtain ⟨rfl, same⟩ := Exec.ok_pure.1 run
    exact ⟨.nil, same⟩
  | @cons e t es ts head tail ih =>
    rw [Place.resolveEach] at run
    obtain ⟨place, mid, resolved, run⟩ := Exec.ok_bind.1 run
    obtain ⟨rest, _, resolved', run⟩ := Exec.ok_bind.1 run
    obtain ⟨rfl, rfl⟩ := Exec.ok_pure.1 run
    have free : ∀ e ∈ es, e.isCallFree = true := fun e he =>
      Expr.isCallFree_of_fits e (fits e (by simp [he]))
    have grows' := ((Place.resolveEach_onlyAllocates free).grows resolved').trans grows
    obtain ⟨denotes, rfl⟩ := denotes_of_resolve sound agrees head (simple e (by simp))
      (fits e (by simp)) (names e (by simp)) ready below grows' resolved
    obtain ⟨rest, same⟩ := ih (fun e he => simple e (by simp [he]))
      (fun e he => fits e (by simp [he])) (fun e he => names e (by simp [he])) below resolved'
    exact ⟨.cons denotes rest, same⟩

end

-- Only its wrapper corresponds to an object.
theorem Value.Alike.wrapper_eq {twins : List Twin} {maps : List (Nat × Nat)} {t : Twin}
    {v' : Value} (apart : Twin.Apart twins) (mem : t ∈ twins)
    (h : Value.Alike twins maps (.object t.object) v') : v' = .object t.wrapper := by
  generalize hv : Value.object t.object = v at h
  cases h with
  | @object u hu =>
    obtain rfl := apart u hu t mem (.inl (Value.object.inj hv).symm)
    rfl
  | _ => cases hv

-- A temporary, and what is evaluated into it.
structure Binding where
  name : String
  expr : Expr
  job : Job

namespace Binding

def captured (bs : List Binding) : Captured :=
  ⟨bs.map (·.name), bs.map (·.expr)⟩

-- The temporary holds the value.
structure Held (b : Binding) (S : Sides) (N : List String) (maps : List (Nat × Nat)) (f' : Frame) :
    Prop where
  fresh : b.name ∉ N
  value : ∃ v', f'.get? b.name = some v' ∧ Value.Alike S.loose maps b.job.value v'

end Binding

-- A target with its place, and the value that it gets with its evaluation and the variables in it.
structure Share where
  target : Target
  place : Place
  value : TypedExpr
  names : List String
  job : Job

-- The job that is left for a value: its evaluation, or just a read if something was bound for it.
def Share.Leaves (s : Share) (second : List Binding) (job : Job) : Prop :=
  job = s.job ∧ second = [] ∨ job = .ofRead s.job.value

section

variable (S : Sides) (N : List String) (m₁ : Machine) (f : Frame) (written early : List String)
  (maps : List (Nat × Nat)) (f' : Frame) (m' : Machine)

-- What is known of a share. What is written to a field reads none of the variables that have been
-- assigned by then.
structure Share.Given (s : Share) : Prop where
  denotes : Denotes S N f' m' s.target s.place
  assigned : ∀ span x, s.target = .plain (.ident span x) → x ∈ written
  due : Due S m₁ maps m' (Exec.eval S.target S.call f' s.value.expr) s.job
  names : s.names ⊆ N
  deferred : s.value.expr.isCallFree = true → Deferred S m₁ f maps s.names s.value.expr s.job
  settled : s.target.isField = true → s.value.isConstant = true → ∀ x ∈ s.names, x ∉ early

-- What a share becomes: what is bound for its target and its value, and what is left to be done.
structure Part where
  share : Share
  operand : Target × Captured
  plan : TargetPlan

def Part.slot (p : Part) (job : Job) : Slot :=
  ⟨p.share.place, job, p.plan⟩

structure Part.Bound (p : Part) (first second : List Binding) : Prop where
  operand : p.operand.2 = Binding.captured first
  value : p.plan.captured = Binding.captured second
  due : ∀ b ∈ first ++ second, Due S m₁ maps m' (Exec.eval S.target S.call f' b.expr) b.job
  reads : ∀ b ∈ first, ∃ v, b.job = .ofRead v
  own : (second.map (·.job)).Sublist [p.share.job]
  pending : ∀ {maps₁ f'₁ m'₁}, maps ⊆ maps₁ → (View.mk S false N f f'₁ m₁).Ready maps m'₁ →
    (∀ x ∈ N, f'₁.var? m'₁ x = f'.var? m' x) →
    (∀ b ∈ first ++ second, b.name ≠ "_" → b.Held S N maps₁ f'₁) →
    ∃ job, p.share.Leaves second job ∧
      Slot.Pending S N m₁ f written early maps₁ f'₁ m'₁ (p.slot job)

end

section

variable {S : Sides} {N : List String} {m₁ m' : Machine} {f f' : Frame} {written early : List String}
  {maps : List (Nat × Nat)} {settings : Settings} {span : Span} {temps temps' : Temporaries}
  {places inPlace : Bool} {s : Share}

-- A value without calls can be had later.
theorem Share.Given.late (h : s.Given S N m₁ f written early maps f' m')
    (free : s.value.expr.isCallFree = true) {xs : List String} (apart : ∀ x ∈ s.names, x ∉ xs)
    {maps₁ : List (Nat × Nat)} {f'₁ : Frame} {m'₁ : Machine} (sub : maps ⊆ maps₁)
    (ready : (View.mk S false N f f'₁ m₁).Ready maps m'₁) :
    Late S N m₁ f xs maps₁ f'₁ m'₁ s.value.expr s.job :=
  .deferred (h.deferred free) sub apart
    ⟨ready.tables, fun x hx => ready.vars x (h.names hx), nofun, nofun⟩

-- What a value that is captured, if it is, leaves behind.
structure Share.Captures (S : Sides) (N : List String) (m₁ : Machine) (f : Frame)
    (xs : List String) (maps : List (Nat × Nat)) (f' : Frame) (m' : Machine) (s : Share)
    (source : TypedExpr × Captured) (second : List Binding) : Prop where
  captured : source.2 = Binding.captured second
  due : ∀ b ∈ second, Due S m₁ maps m' (Exec.eval S.target S.call f' b.expr) b.job
  own : (second.map (·.job)).Sublist [s.job]
  late : ∀ {maps₁ f'₁ m'₁}, maps ⊆ maps₁ → (View.mk S false N f f'₁ m₁).Ready maps m'₁ →
    (∀ b ∈ second, b.name ≠ "_" → b.Held S N maps₁ f'₁) →
    ∃ job, s.Leaves second job ∧ Late S N m₁ f xs maps₁ f'₁ m'₁ source.1.expr job

-- A constant stays where it is, any other value goes into a temporary.
theorem Share.Given.captures (h : s.Given S N m₁ f written early maps f' m') (hint : String)
    {xs : List String} (apart : s.value.isConstant = true → ∀ x ∈ s.names, x ∉ xs) :
    ∃ second, s.Captures S N m₁ f xs maps f' m'
      (captureValue span hint (some s.value) temps).1 second := by
  by_cases constant : s.value.isConstant = true
  · have kept : captureValue span hint (some s.value) temps = ((s.value, {}), temps) := by
      simp only [captureValue, if_pos constant]
      rfl
    rw [kept]
    have free : s.value.expr.isCallFree = true := by
      simp only [TypedExpr.isConstant, Bool.and_eq_true] at constant
      exact constant.2
    exact ⟨[], rfl, by simp, by simp, fun sub ready _ =>
      ⟨s.job, .inl ⟨rfl, rfl⟩, h.late free (apart constant) sub ready⟩⟩
  · let name := Naming.unique (Naming.localVariable hint) temps.taken
    have captured : captureValue span hint (some s.value) temps =
        ((⟨.ident span name, s.value.type⟩, ⟨[name], [s.value.expr]⟩), ⟨name :: temps.taken⟩) := by
      simp only [captureValue, if_neg constant]
      rfl
    rw [captured]
    refine ⟨[⟨name, s.value.expr, s.job⟩], rfl, by simpa using h.due, List.Sublist.refl _,
      fun sub ready held => ⟨.ofRead s.job.value, .inr rfl, ?_⟩⟩
    have named : name ≠ "_" := Naming.unique_ne_blank (Naming.localVariable_ne_blank hint) _
    obtain ⟨fresh, v', get, alike⟩ := held _ (List.mem_singleton.2 rfl) named
    exact .held fresh get alike

-- A receiver stays where it is, or it is a variable that the assignment writes.
theorem Expr.isStable_iff {receiver : Expr} {y : String} (h : receiver.unparen.ident? = some y) :
    receiver.isStable written = true ↔ y ∉ written := by
  induction receiver using Expr.unparen.induct with
  | case1 span inner ih => exact ih h
  | case2 e hp => cases e <;> simp_all [Expr.unparen, Expr.ident?, Expr.isStable]

-- A blank target: nothing is bound for it unless its value calls something.
theorem Share.Given.bound_blank (h : s.Given S N m₁ f written early maps f' m')
    (place : s.place = .blank) (free : inPlace = true → s.value.expr.isCallFree = true) :
    ∃ second, Part.Bound S N m₁ f written early maps f' m'
      ⟨s, (.blank, {}), (planTarget settings span inPlace .blank (some s.value) temps').1⟩ []
      second := by
  rw [planTarget_blank]
  cases inPlace with
  | true =>
    refine ⟨[], rfl, rfl, by simp, by simp, by simp, fun sub ready _ _ =>
      ⟨s.job, .inl ⟨rfl, rfl⟩, ?_⟩⟩
    rw [Part.slot, place]
    exact .blank (h.late (free rfl) (by simp) sub ready)
  | false =>
    have done {maps₁ f'₁ m'₁} {c : Captured} : Slot.Pending S N m₁ f written early maps₁ f'₁ m'₁
        ⟨s.place, .ofRead s.job.value, ⟨c, none, none⟩⟩ := by
      rw [place]
      exact .done
    by_cases free : s.value.expr.isCallFree = true
    · refine ⟨[], rfl, ?_, by simp, by simp, by simp, fun _ _ _ _ => ⟨_, .inr rfl, done⟩⟩
      simp [discard, free, Binding.captured]
    · refine ⟨[⟨"_", s.value.expr, s.job⟩], rfl, ?_, by simpa using h.due, by simp,
        List.Sublist.refl _, fun _ _ _ _ => ⟨_, .inr rfl, done⟩⟩
      simp [discard, free, Binding.captured]

-- A variable that takes its value where it stands, or else from a temporary.
theorem Share.Given.bound_named (h : s.Given S N m₁ f written early maps f' m') {at_ : Span}
    {x : String} (target : s.target = .plain (.ident at_ x)) (place : s.place = .named x)
    (named : x ≠ "_") (single : S.receiver ≠ some x)
    (free : inPlace = true → s.value.expr.isCallFree = true) :
    ∃ second, Part.Bound S N m₁ f written early maps f' m'
      ⟨s, (.plain (.ident at_ x), {}),
        (planTarget settings span inPlace (.plain (.ident at_ x)) (some s.value) temps').1⟩ []
      second := by
  have mem := h.assigned _ _ target
  rw [planTarget_plain]
  cases inPlace with
  | true =>
    refine ⟨[], rfl, rfl, by simp, by simp, by simp, fun sub ready _ _ =>
      ⟨s.job, .inl ⟨rfl, rfl⟩, ?_⟩⟩
    rw [Part.slot, place]
    exact .named mem named single (h.late (free rfl) (by simp) sub ready)
  | false =>
    obtain ⟨second, captures⟩ : ∃ second, s.Captures S N m₁ f [] maps f' m'
        (captureValue span (Expr.ident at_ x).nameHint (some s.value) temps').1 second :=
      h.captures _ (by simp)
    refine ⟨second, rfl, captures.captured, captures.due, by simp, captures.own,
      fun sub ready _ held => ?_⟩
    obtain ⟨job, same, late⟩ := captures.late sub ready held
    refine ⟨job, same, ?_⟩
    rw [Part.slot, place]
    exact .named mem named single late

-- A field: its receiver stays where it is unless the assignment writes it.
theorem Share.Given.bound_field (h : s.Given S N m₁ f written early maps f' m') (sound : S.Sound)
    (counted : written ⊆ N) (before : early ⊆ written) (other : ∀ y ∈ written, S.receiver ≠ some y)
    {receiver : Expr} {info : FieldInfo} {t : Twin} {name y : String} {k : BasicKind}
    (target : s.target = .field receiver info) (place : s.place = .field t.object name)
    (seen : t ∈ S.seen y) (stores : S.catalog.Stores t.entity name info k)
    (hy : receiver.unparen.ident? = some y) (mem : y ∈ N)
    (var : f'.var? m' y = some (.object t.wrapper)) :
    ∃ first second, Part.Bound S N m₁ f written early maps f' m'
      ⟨s, (captureTarget span written places (.field receiver info) temps).1,
        (planTarget settings span inPlace
          (captureTarget span written places (.field receiver info) temps).1.1
          (some s.value) temps').1⟩ first second := by
  have twin := sound.seen_subset y seen
  have isField : s.target.isField = true := by rw [target]; rfl
  obtain ⟨second, captures⟩ : ∃ second, s.Captures S N m₁ f early maps f' m'
      (captureValue span info.name (some s.value) temps').1 second :=
    h.captures _ (h.settled isField)
  by_cases stable : receiver.isStable written = true
  · have free := (Expr.isStable_iff hy).1 stable
    have kept : (captureTarget span written places (.field receiver info) temps).1 =
        (.field receiver info, {}) := by
      simp only [captureTarget, if_pos stable]
      rfl
    rw [kept]
    simp only [planTarget_field]
    refine ⟨[], second, rfl, captures.captured, captures.due, by simp, captures.own,
      fun sub ready₁ same held => ?_⟩
    obtain ⟨job, e, late⟩ := captures.late sub ready₁ held
    refine ⟨job, e, ?_⟩
    rw [Part.slot, place]
    exact .field twin stores hy (fun h => free (before h)) ((same y mem).trans var) late
  · have assigned : y ∈ written := by
      by_contra free
      exact stable ((Expr.isStable_iff hy).2 free)
    let temp := Naming.unique (Naming.localVariable receiver.nameHint) temps.taken
    have captured : (captureTarget span written places (.field receiver info) temps).1 =
        (.field (.ident span temp) info, ⟨[temp], [receiver]⟩) := by
      simp only [captureTarget, if_neg stable]
      rfl
    rw [captured]
    simp only [planTarget_field]
    let b : Binding := ⟨temp, receiver, .ofRead (.object t.object)⟩
    have loose : t ∈ S.loose := by
      rw [Sides.seen_of_ne (other y assigned)] at seen
      exact seen
    refine ⟨[b], second, rfl, captures.captured, ?_, by simp [b], captures.own,
      fun sub ready₁ same held => ?_⟩
    · rw [List.singleton_append, List.forall_mem_cons]
      refine ⟨⟨fun {maps₁ m'₁} sub grows tables _ => ?_⟩, captures.due⟩
      refine ⟨.object t.wrapper, m'₁, [], ?_, .refl _, by simp, tables, .object loose⟩
      rw [Exec.eval_of_unparen hy]
      exact Exec.ok_eval_ident.2 ⟨(grows.var? _ _).trans var, rfl⟩
    · obtain ⟨job, e, late⟩ :=
        captures.late sub ready₁ fun b hb => held b (by simp [hb])
      refine ⟨job, e, ?_⟩
      have named : temp ≠ "_" := Naming.unique_ne_blank (Naming.localVariable_ne_blank _) _
      obtain ⟨fresh, v', get, alike⟩ := held b (by simp) named
      obtain rfl := Value.Alike.wrapper_eq sound.loose_apart loose alike
      rw [Part.slot, place]
      refine .field (y := temp) twin stores ?_ (fun h => fresh (counted (before h))) ?_ late
      · rfl
      · change Frame.get? _ temp = _ at get
        simp [Frame.var?, get]

-- What a share becomes is bound, whatever it is.
theorem Share.Given.bound (h : s.Given S N m₁ f written early maps f' m') (sound : S.Sound)
    (counted : written ⊆ N) (before : early ⊆ written) (other : ∀ y ∈ written, S.receiver ≠ some y)
    (free : inPlace = true → s.value.expr.isCallFree = true) (settings : Settings) (span : Span)
    (places : Bool) (temps temps' : Temporaries) :
    ∃ first second, Part.Bound S N m₁ f written early maps f' m'
      ⟨s, (captureTarget span written places s.target temps).1,
        (planTarget settings span inPlace (captureTarget span written places s.target temps).1.1
          (some s.value) temps').1⟩ first second := by
  have denotes := h.denotes
  generalize ht : s.target = target at denotes
  generalize hp : s.place = place at denotes
  cases denotes with
  | blank =>
    obtain ⟨second, bound⟩ := h.bound_blank hp free
    exact ⟨[], second, bound⟩
  | named mem named single =>
    obtain ⟨second, bound⟩ := h.bound_named ht hp named single free
    refine ⟨[], second, ?_⟩
    simp only [captureTarget, Expr.isCallFree, Bool.not_true, Bool.and_false, Bool.false_eq_true,
      if_false]
    exact bound
  | field seen stores hy mem var =>
    exact h.bound_field sound counted before other ht hp seen stores hy mem var

end

end FieldAccess
