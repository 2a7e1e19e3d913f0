import FieldAccess.Eval.Stmt
import FieldAccess.Proofs.ReadSimulation
import FieldAccess.Proofs.States

namespace FieldAccess

-- What lies in a field.
def Expr.InField (u : Usage) : Expr → Prop
  | .paren _ inner => inner.InField u
  | .select _ base member => ∃ x, base.unparen.ident? = some x ∧ u.field x member
  | .index _ base _ => base.InField u
  | _ => False

section

variable {u : Usage} {σ : Type} [TypeOracle σ]

-- Parentheses around a target change nothing.
theorem Expr.unparen_induction {P : Expr → Expr → Prop}
    (paren : ∀ span inner, P inner inner.unparen → P (.paren span inner) inner.unparen)
    (other : ∀ e : Expr, (∀ span inner, e ≠ .paren span inner) → P e e) (e : Expr) :
    P e e.unparen := by
  induction e using Expr.unparen.induct with
  | case1 span inner ih => exact paren span inner ih
  | case2 e hp =>
    have same : e.unparen = e := by
      unfold Expr.unparen
      split
      · exact absurd rfl (hp _ _)
      · rfl
    rw [same]
    exact other e fun span inner h => hp span inner h

theorem Expr.fits_unparen (e : Expr) : e.Fits u ↔ e.unparen.Fits u :=
  unparen_induction (P := fun e e' => e.Fits u ↔ e'.Fits u) (fun _ _ h => h) (fun _ _ => .rfl) e

theorem Expr.inField_unparen (e : Expr) : e.InField u ↔ e.unparen.InField u :=
  unparen_induction (P := fun e e' => e.InField u ↔ e'.InField u) (fun _ _ h => h)
    (fun _ _ => .rfl) e

theorem Expr.names_unparen (e : Expr) : e.names = e.unparen.names :=
  unparen_induction (P := fun e e' => e.names = e'.names) (fun _ _ h => h) (fun _ _ => rfl) e

theorem RedirectContext.target_unparen (r : RedirectContext) (o : σ) (e : Expr) :
    r.target o e = r.target o e.unparen :=
  Expr.unparen_induction (P := fun e e' => r.target o e = r.target o e')
    (fun _ _ h => by rw [target]; exact h) (fun _ _ => rfl) e

theorem Place.resolve_unparen (p : Program) (call : CallHandler) (f : Frame) (e : Expr) :
    resolve p call f e = resolve p call f e.unparen :=
  Expr.unparen_induction (P := fun e e' => resolve p call f e = resolve p call f e')
    (fun _ _ h => by rw [resolve]; exact h) (fun _ _ => rfl) e

theorem Expr.unparen_ne_paren (e : Expr) (span : Span) (inner : Expr) :
    e.unparen ≠ .paren span inner :=
  unparen_induction (P := fun _ e' => ∀ span inner, e' ≠ .paren span inner) (fun _ _ h => h)
    (fun _ h => h) e span inner

end

namespace RedirectContext

variable {σ : Type} [TypeOracle σ] {r : RedirectContext} {o : σ} {e : Expr}

theorem ok_target_blank (h : r.target o e = .ok .blank) : e.unparen.ident? = some "_" := by
  rw [target_unparen] at h
  have := e.unparen_ne_paren
  cases he : e.unparen <;> rw [he, target] at h
  case ident =>
    have h := ok_pure.1 h
    split at h
    case isTrue blank => simpa [Expr.isBlank] using blank
    case isFalse => cases h
  case select =>
    obtain ⟨_, _, h⟩ := ok_bind.1 h
    obtain ⟨resolution, _, h⟩ := ok_bind.1 h
    cases resolution <;> cases ok_pure.1 h
  case paren => exact absurd he (this _ _)
  all_goals
    obtain ⟨_, _, h⟩ := ok_bind.1 h
    cases ok_pure.1 h

theorem target_of_blank {t : Target} (h : r.target o e = .ok t)
    (blank : e.unparen.ident? = some "_") : t = .blank := by
  rw [target_unparen] at h
  cases he : e.unparen <;> rw [he] at h blank <;> cases blank
  exact (ok_pure.1 h).symm

-- Any other target is redirected like a value.
theorem ok_target_plain {place : Expr} (h : r.target o e = .ok (.plain place)) :
    ∃ t, r.value o e.unparen = .ok t ∧ t.expr = place ∧ e.unparen.ident? ≠ some "_" := by
  rw [target_unparen] at h
  have := e.unparen_ne_paren
  cases he : e.unparen <;> rw [he, target] at h
  case ident span x =>
    have h := ok_pure.1 h
    split at h
    · cases h
    case isFalse named =>
      obtain rfl := Target.plain.inj h
      exact ⟨_, rfl, rfl, by simpa [Expr.isBlank] using named⟩
  case select span base member =>
    obtain ⟨t, hb, h⟩ := ok_bind.1 h
    obtain ⟨resolution, hr, h⟩ := ok_bind.1 h
    cases resolution with
    | proxied => cases ok_pure.1 h
    | direct | other =>
      obtain rfl := Target.plain.inj (ok_pure.1 h)
      refine ⟨_, by rw [value, hb]; exact ok_bind.2 ⟨_, rfl, ok_bind.2 ⟨_, hr, rfl⟩⟩, rfl,
        by simp [Expr.ident?]⟩
  case paren => exact absurd he (this _ _)
  all_goals first
    | (obtain ⟨t, ht, h⟩ := ok_bind.1 h
       obtain rfl := Target.plain.inj (ok_pure.1 h)
       exact ⟨t, ht, rfl, by simp [Expr.ident?]⟩)
    | simp

end RedirectContext

-- The same variable, or items at the same indices of such.
inductive Place.Alike (S : Sides) (N : List String) (maps : List (Nat × Nat)) :
    Place → Place → Prop
  | blank : Alike S N maps .blank .blank
  | named {x : String} : x ∈ N → S.receiver ≠ some x → Alike S N maps (.named x) (.named x)
  | item {c c' : Place} {i i' : Value} : Alike S N maps c c' → Value.Alike S.loose maps i i' →
      Alike S N maps (.item c i) (.item c' i')
  | temporary {v v' : Value} : Value.Alike S.loose maps v v' →
      Alike S N maps (.temporary v) (.temporary v')

-- A field of a plain object, or an item in one.
inductive Place.OfField (S : Sides) : Place → Prop
  | field {t : Twin} {name : String} {info : FieldInfo} {k : BasicKind} : t ∈ S.twins →
      S.catalog.Stores t.entity name info k → OfField S (.field t.object name)
  | item {c : Place} {i : Value} : OfField S c → OfField S (.item c i)

variable {S : Sides} {N : List String} {maps maps' : List (Nat × Nat)} {f f₁ f' : Frame}
  {m m₁ m' : Machine}

theorem Place.Alike.mono {place place' : Place} (h : place.Alike S N maps place')
    (sub : maps ⊆ maps') : place.Alike S N maps' place' := by
  induction h with
  | blank => exact .blank
  | named mem other => exact .named mem other
  | item _ hi ih => exact .item ih (hi.mono (List.Subset.refl _) sub)
  | temporary hv => exact .temporary (hv.mono (List.Subset.refl _) sub)

-- What is done to the content of a place on the one side is done on the other.
structure Place.Access.Mimics (S : Sides) (N : List String) (maps : List (Nat × Nat)) {α β : Type}
    (g : Place.Access α) (g' : Place.Access β) (R : α → β → Prop) : Prop where
  run : ∀ {v v' m m' a u m₁}, Value.Alike S.loose maps v v' → Machines S N maps m m' →
    g v m = .ok (a, u) m₁ → ∃ b u' m'₁, g' v' m' = .ok (b, u') m'₁ ∧ Machines S N maps m₁ m'₁ ∧
      m₁.objects = m.objects ∧ Value.Alike S.loose maps u u' ∧ R a b

namespace Place.Access

variable {α β : Type} {g : Place.Access α} {g' : Place.Access β} {R : α → β → Prop}

theorem Mimics.put {v v' : Value} (h : Value.Alike S.loose maps v v') :
    Mimics S N maps (fun _ => return ((), v)) (fun _ => return ((), v')) fun _ _ => True where
  run _ machines run := by
    obtain ⟨e, rfl⟩ := Exec.ok_pure.1 run
    obtain ⟨_, rfl⟩ := Prod.mk.inj e
    exact ⟨(), v', _, rfl, machines, rfl, h, trivial⟩

theorem Mimics.item (h : Mimics S N maps g g' R) {i i' : Value}
    (hi : Value.Alike S.loose maps i i') :
    Mimics S N maps (accessItem i g) (accessItem i' g') R where
  run {v v' m m' a u m₁} alike machines run := by
    cases alike with
    | @slice as bs items =>
      have items := Value.alikeItems_iff.1 items
      simp only [accessItem, Exec.ok_bind, Exec.ok_orFail] at run
      obtain ⟨n, _, ⟨hn, rfl⟩, run⟩ := run
      cases hp : Value.position? n as.length with
      | none =>
        rw [hp] at run
        exact (Exec.ok_fail.1 run).elim
      | some position =>
        rw [hp] at run
        obtain ⟨⟨a₁, u₁⟩, m₂, got, put⟩ := Exec.ok_bind.1 run
        obtain ⟨e, rfl⟩ := Exec.ok_pure.1 put
        obtain ⟨rfl, rfl⟩ := Prod.mk.inj e
        have content : Value.Alike S.loose maps (as[position]?.getD .nil)
            (bs[position]?.getD .nil) := .getD (forall₂_getElem? items position)
        obtain ⟨b, u', m'₁, got', machines', objects, hu, rel⟩ := h.run content machines got
        refine ⟨b, .slice (bs.set position u'), m'₁, ?_, machines', objects,
          .slice (Value.alikeItems_iff.2 (Value.forall₂_set items position hu)), rel⟩
        simp only [accessItem, Exec.ok_bind, Exec.ok_orFail]
        refine ⟨n, m', ⟨by rw [← hi.int?_eq, hn], rfl⟩, ?_⟩
        rw [← items.length_eq, hp]
        exact Exec.ok_bind.2 ⟨(b, u'), m'₁, got', rfl⟩
    | @map p q mem =>
      simp only [accessItem, Exec.ok_bind, Exec.mapKey, Exec.ok_orFail, Exec.ok_get] at run
      obtain ⟨key, _, ⟨hk, rfl⟩, _, _, ⟨rfl, rfl⟩, ⟨a₁, u₁⟩, m₂, got, put⟩ := run
      simp only [Exec.ok_modify, Exec.ok_pure] at put
      obtain ⟨_, _, rfl, e, rfl⟩ := put
      obtain ⟨rfl, rfl⟩ := Prod.mk.inj e
      have content := Value.Alike.getD ((machines.tables.alike _ mem).get? key)
      obtain ⟨b, u', m'₁, got', machines', objects, hu, rel⟩ := h.run content machines got
      refine ⟨b, .map q, _, ?_, machines'.setMap mem key hu, objects, .map mem, rel⟩
      simp only [accessItem, Exec.ok_bind, Exec.mapKey, Exec.ok_orFail, Exec.ok_get]
      refine ⟨key, m', ⟨by rw [← hi.key?_eq, hk], rfl⟩, m', m', ⟨rfl, rfl⟩, (b, u'), m'₁, got', ?_⟩
      exact ⟨(), _, Exec.ok_modify.2 rfl, rfl⟩
    | nil => exact (Exec.ok_fail.1 run).elim
    | _ => exact (Exec.ok_failType.1 run).elim

end Place.Access

namespace Place

variable {α β : Type} {g : Access α} {g' : Access β} {R : α → β → Prop}

theorem ok_access_blank {a : α} :
    blank.access g f m = .ok (a, f₁) m₁ ↔ ∃ u, g .nil m = .ok (a, u) m₁ ∧ f = f₁ := by
  simp only [access, Step.ok_bind, Step.ok_lift, Step.ok_pure]
  grind

theorem ok_access_temporary {v : Value} {a : α} :
    (temporary v).access g f m = .ok (a, f₁) m₁ ↔ ∃ u, g v m = .ok (a, u) m₁ ∧ f = f₁ := by
  simp only [access, Step.ok_bind, Step.ok_lift, Step.ok_pure]
  grind

-- A variable of the frame, or else of the package.
theorem ok_access_named {x : String} {a : α} :
    (named x).access g f m = .ok (a, f₁) m₁ ↔
      (∃ v u, f.get? x = some v ∧ g v m = .ok (a, u) m₁ ∧ f₁ = f.assign x u) ∨
      (∃ v u m₂, f.get? x = none ∧ m.globals.get? x = some v ∧ g v m = .ok (a, u) m₂ ∧
        m₁ = m₂.setGlobal x u ∧ f₁ = f) := by
  simp only [access, accessName, Step.get_bind]
  cases hx : f.get? x with
  | none =>
    simp only [Step.ok_bind, Step.ok_lift, Step.ok_getThe, Step.ok_modifyThe, Step.ok_pure,
      Exec.ok_orFail]
    grind
  | some v =>
    simp only [Step.ok_bind, Step.ok_lift, Step.ok_modify, Step.ok_pure]
    grind

-- Access to places that correspond.
theorem Alike.access {place place' : Place} (h : place.Alike S N maps place')
    (hg : Access.Mimics S N maps g g' R) (states : States S N maps f m f' m') {a : α}
    (run : place.access g f m = .ok (a, f₁) m₁) :
    ∃ b f'₁ m'₁, place'.access g' f' m' = .ok (b, f'₁) m'₁ ∧ States S N maps f₁ m₁ f'₁ m'₁ ∧
      m₁.objects = m.objects ∧ R a b := by
  induction h generalizing α β with
  | blank =>
    obtain ⟨u, got, rfl⟩ := ok_access_blank.1 run
    obtain ⟨b, u', m'₁, run', machines, objects, _, rel⟩ := hg.run .nil states.toMachines got
    exact ⟨b, f', m'₁, ok_access_blank.2 ⟨u', run', rfl⟩, ⟨machines, states.scopes⟩, objects, rel⟩
  | temporary hv =>
    obtain ⟨u, got, rfl⟩ := ok_access_temporary.1 run
    obtain ⟨b, u', m'₁, run', machines, objects, _, rel⟩ := hg.run hv states.toMachines got
    exact ⟨b, f', m'₁, ok_access_temporary.2 ⟨u', run', rfl⟩, ⟨machines, states.scopes⟩, objects,
      rel⟩
  | item _ hi ih => exact ih (hg.item hi) run
  | @named x mem other =>
    have inFrame := states.scopes.get? mem
    have inPackage := states.globals x mem
    rw [Sides.seen_of_ne other] at inFrame inPackage
    rcases ok_access_named.1 run with ⟨v, u, hx, got, rfl⟩ |
        ⟨v, u, m₂, hx, global, got, rfl, rfl⟩
    · cases hx' : f'.get? x with
      | none => simp [hx, hx'] at inFrame
      | some v' =>
        rw [hx, hx', Option.rel_some_some] at inFrame
        obtain ⟨b, u', m'₁, run', machines, objects, hu, rel⟩ :=
          hg.run inFrame states.toMachines got
        rw [← Sides.seen_of_ne other] at hu
        exact ⟨b, _, m'₁, ok_access_named.2 (.inl ⟨v', u', hx', run', rfl⟩),
          ⟨machines, states.scopes.assign mem hu⟩, objects, rel⟩
    · cases hx' : f'.get? x with
      | some _ => simp [hx, hx'] at inFrame
      | none =>
        cases hv' : m'.globals.get? x with
        | none => simp [global, hv'] at inPackage
        | some v' =>
          rw [global, hv', Option.rel_some_some] at inPackage
          obtain ⟨b, u', m'₁, run', machines, objects, hu, rel⟩ :=
            hg.run inPackage states.toMachines got
          rw [← Sides.seen_of_ne other] at hu
          exact ⟨b, f', _, ok_access_named.2 (.inr ⟨v', u', m'₁, hx', hv', run', rfl, rfl⟩),
            ⟨machines.setGlobal hu, states.scopes⟩, objects, rel⟩

-- The fields of plain objects have no items.
theorem OfField.item_fails {c : Place} (h : OfField S c) (kinds : S.InKind m) {i : Value} {a : α} :
    (Place.item c i).access g f m ≠ .ok (a, f₁) m₁ := by
  induction h generalizing i g with
  | @field t name info k mem stores =>
    intro run
    obtain ⟨v, hv, kind⟩ := kinds t mem stores
    simp only [Place.access, Step.ok_lift, accessField, Exec.ok_bind, Exec.ok_get] at run
    obtain ⟨⟨_, _, ⟨rfl, rfl⟩, _, _, _, p, _, item, _⟩, _⟩ := run
    rw [hv] at item
    cases k <;> cases v <;> contradiction
  | item _ ih => exact ih

-- The place that holds the items of an expression.
def holder (p : Program) (call : CallHandler) (f : Frame) (e : Expr) : Exec Place :=
  if e.isPlaceLike then resolve p call f e else temporary <$> Exec.eval p call f e

theorem resolve_index (p : Program) (call : CallHandler) (f : Frame) (span : Span) (e i : Expr) :
    resolve p call f (.index span e i) =
      holder p call f e >>= fun container => do
        return .item container (← Exec.eval p call f i) := by
  rw [resolve, holder]
  split <;> rfl

theorem resolve_onlyAllocates (p : Program) (call : CallHandler) (f : Frame) :
    ∀ e : Expr, e.isCallFree = true → Exec.OnlyAllocates (resolve p call f e)
  | .ident _ _, _ => by
    rw [resolve]
    exact .pure _
  | .paren _ inner, h => by
    rw [resolve]
    exact resolve_onlyAllocates p call f inner h
  | .select _ base _, h => by
    rw [resolve]
    refine .bind (Exec.eval_onlyAllocates p call f base h) fun v => ?_
    cases v with
    | object => exact .pure _
    | _ => exact .fail _
  | .index _ base i, h => by
    obtain ⟨hb, hi⟩ := Bool.and_eq_true_iff.1 h
    rw [resolve_index, holder]
    refine .bind ?_ fun _ => .bind (Exec.eval_onlyAllocates p call f i hi) fun _ => .pure _
    split
    · exact resolve_onlyAllocates p call f base hb
    · exact .map _ (Exec.eval_onlyAllocates p call f base hb)
  | .literal _ _, _ | .binary _ _ _ _, _ | .unary _ _ _, _ | .composite _ _ _, _
  | .typeOperand _ _, _ => by
    rw [resolve]
    · exact .fail _
    all_goals simp

section

variable {r : RedirectContext} {c : TypeContext} {u : Usage} {w : View} {t : TypedExpr}
  {base : List (Nat × Nat)} {call : CallHandler} (sound : w.sides.Sound) (agrees : u.Agrees r c w)

include sound agrees

-- A selector that denotes no field is no place.
theorem stray_mimics {span : Span} {e : Expr} {member : String} {x' : Exec Place}
    (h : r.value c (.select span e member) = .ok t) (fits : (Expr.select span e member).Fits u)
    (outside : ¬ (Expr.select span e member).InField u)
    (names : (Expr.select span e member).names ⊆ w.names) (reads : w.reads = true) :
    Exec.Mimics w base (resolve w.sides.source call w.source (.select span e member)) x'
      (Place.Alike w.sides w.names) where
  run {lo hi place maps m'} run grows sub below ready := by
    rcases fits with hf | ⟨strays, fits⟩
    · exact absurd hf outside
    · obtain ⟨te, he, _⟩ := RedirectContext.ok_value_select h
      rw [resolve] at run
      obtain ⟨v, mid, run, selected⟩ := Exec.ok_bind.1 run
      have grows' : mid.Grows hi := by
        cases v with
        | object => exact (Exec.ok_pure.1 selected).2 ▸ .refl _
        | nil => exact (Exec.ok_fail.1 selected).elim
        | _ => exact (Exec.ok_fail.1 selected).elim
      obtain ⟨v', _, _, _, _, _, _, alike⟩ :=
        (Exec.eval_mimics sound agrees e he fits names (.inl reads)).run run (grows'.trans grows)
          sub below ready
      simp only [View.Alike, agrees.strays strays] at alike
      cases alike with
      | object mem => cases mem
      | _ => exact (Exec.ok_fail.1 selected).elim

-- The place that holds items, if what denotes it is mimicked wherever that is a place.
theorem holder_mimics (reads : w.reads = true) {e : Expr} (h : r.value c e = .ok t)
    (fits : e.Fits u) (outside : ¬ e.InField u) (names : e.names ⊆ w.names)
    (place : Exec.Mimics w base (resolve w.sides.source call w.source e)
      (resolve w.sides.target w.sides.call w.target t.expr) (Place.Alike w.sides w.names)) :
    Exec.Mimics w base (holder w.sides.source call w.source e)
      (holder w.sides.target w.sides.call w.target t.expr) (Place.Alike w.sides w.names) := by
  have value : Exec.Mimics w base (temporary <$> Exec.eval w.sides.source call w.source e)
      (temporary <$> Exec.eval w.sides.target w.sides.call w.target t.expr)
      (Place.Alike w.sides w.names) := by
    refine ⟨fun run grows sub below ready => ?_⟩
    obtain ⟨v, got, rfl⟩ := Exec.ok_map.1 run
    obtain ⟨v', m'₁, ext, run', grows', fresh, tables, alike⟩ :=
      (Exec.eval_mimics sound agrees e h fits names (.inl reads)).run got grows sub below ready
    exact ⟨_, m'₁, ext, Exec.ok_map.2 ⟨v', run', rfl⟩, grows', fresh, tables, .temporary alike⟩
  cases e with
  | select => exact stray_mimics sound agrees h fits outside names reads
  | ident =>
    obtain rfl := FieldAccess.ok_pure.1 h
    exact place
  | paren =>
    obtain ⟨_, _, rfl⟩ := RedirectContext.ok_value_paren h
    exact place
  | index =>
    obtain ⟨_, _, _, _, shape⟩ := RedirectContext.ok_value_index h
    simp only [shape] at place ⊢
    exact place
  | literal | typeOperand =>
    obtain rfl := FieldAccess.ok_pure.1 h
    exact value
  | call => exact fits.elim
  | binary =>
    obtain ⟨_, _, _, _, rfl⟩ := RedirectContext.ok_value_binary h
    exact value
  | unary =>
    obtain ⟨_, _, shape⟩ := RedirectContext.ok_value_unary h
    simp only [shape] at value ⊢
    exact value
  | composite =>
    obtain ⟨_, _, shape⟩ := RedirectContext.ok_value_composite h
    simp only [shape] at value ⊢
    exact value

-- A target outside of fields denotes the same place after redirection.
theorem resolve_mimics (reads : w.reads = true) : ∀ (e : Expr) {t : TypedExpr}
    {base : List (Nat × Nat)}, r.value c e = .ok t → e.Fits u → ¬ e.InField u →
    e.names ⊆ w.names →
    Exec.Mimics w base (resolve w.sides.source call w.source e)
      (resolve w.sides.target w.sides.call w.target t.expr) (Place.Alike w.sides w.names)
  | .ident span x, t, base, h, fits, _, names => by
    obtain rfl := FieldAccess.ok_pure.1 h
    rw [resolve, resolve]
    refine .pure fun maps _ => ?_
    split
    · exact .blank
    · exact .named (names (by simp [Expr.names])) (agrees.receiver ▸ fits)
  | .paren span inner, t, base, h, fits, outside, names => by
    obtain ⟨te, he, rfl⟩ := RedirectContext.ok_value_paren h
    rw [resolve, resolve]
    exact resolve_mimics reads inner he fits outside names
  | .select span e member, t, base, h, fits, outside, names =>
    stray_mimics sound agrees h fits outside names reads
  | .index span e i, t, base, h, fits, outside, names => by
    obtain ⟨te, ti, he, hi, ht⟩ := RedirectContext.ok_value_index h
    rw [Expr.names, List.append_subset] at names
    have free := Expr.isCallFree_of_fits e fits.1
    have free' := Expr.isCallFree_of_fits i fits.2
    have index {maps : List (Nat × Nat)} : Exec.Mimics w maps
        (Exec.eval w.sides.source call w.source i)
        (Exec.eval w.sides.target w.sides.call w.target ti.expr) w.Alike :=
      Exec.eval_mimics sound agrees i hi fits.2 names.2 (.inl reads)
    rw [ht, resolve_index, resolve_index]
    refine .bind (R := Place.Alike w.sides w.names) ?_ (fun _ =>
      .bind (Exec.eval_onlyAllocates _ _ _ i free') fun _ => .pure _) ?_ ?_
    · rw [holder]
      split
      · exact resolve_onlyAllocates _ _ _ e free
      · exact .map _ (Exec.eval_onlyAllocates _ _ _ e free)
    · exact holder_mimics sound agrees reads he fits.1 outside names.1
        (resolve_mimics reads e he fits.1 outside names.1)
    · intro maps place place' sub _ hp
      refine .bind (Exec.eval_onlyAllocates _ _ _ i free') (fun _ => .pure _) index
        fun _ _ _ sub' _ hv => ?_
      exact .pure fun _ sub'' => .item (hp.mono (List.Subset.trans sub' sub''))
        (hv.mono (List.Subset.refl _) sub'')
  | .literal _ _, _, _, _, _, _, _ | .binary _ _ _ _, _, _, _, _, _, _
  | .unary _ _ _, _, _, _, _, _, _ | .composite _ _ _, _, _, _, _, _, _
  | .typeOperand _ _, _, _, _, _, _, _ => by
    rw [resolve]
    · exact .fail _
    all_goals simp
  | .call _ _ _ _, _, _, _, fits, _, _ => fits.elim

-- A target that is no field denotes the same place after redirection.
theorem kept_mimics (reads : w.reads = true) {e : Expr} {target : Target}
    (h : r.target c e = .ok target) (noField : target.isField = false) (fits : e.Fits u)
    (outside : ¬ e.InField u) (names : e.names ⊆ w.names) :
    Exec.Mimics w base (resolve w.sides.source call w.source e)
      (resolve w.sides.target w.sides.call w.target (target.place e))
      (Place.Alike w.sides w.names) := by
  rw [resolve_unparen _ _ _ e]
  cases target with
  | field => cases noField
  | blank =>
    have blank := RedirectContext.ok_target_blank h
    change Exec.Mimics w base _ (resolve w.sides.target w.sides.call w.target e) _
    rw [resolve_unparen _ _ _ e]
    cases he : e.unparen <;> simp only [he, Expr.ident?, reduceCtorEq, Option.some.injEq] at blank
    subst blank
    rw [resolve, resolve]
    exact .pure fun _ _ => .blank
  | plain place =>
    obtain ⟨t, ht, rfl, _⟩ := RedirectContext.ok_target_plain h
    rw [Expr.fits_unparen] at fits
    rw [Expr.inField_unparen] at outside
    rw [Expr.names_unparen] at names
    exact resolve_mimics sound agrees reads e.unparen ht fits outside names

omit sound in
-- A selector that denotes a field is a place in the object that the variable holds.
theorem field_of_select {span : Span} {e : Expr} {x member : String}
    (hx : e.unparen.ident? = some x) (hf : u.field x member) (mem : x ∈ w.names)
    {lo hi : Machine} {place : Place} {maps : List (Nat × Nat)} {m' : Machine}
    (run : resolve w.sides.source call w.source (.select span e member) lo = .ok place hi)
    (grows : hi.Grows w.machine) (ready : w.Ready maps m') :
    ∃ t ∈ w.sides.seen x, ∃ info k, place = .field t.object member ∧
      w.sides.catalog.Stores t.entity member info k ∧ hi = lo ∧
      w.source.var? lo x = some (.object t.object) ∧
      w.target.var? m' x = some (.object t.wrapper) ∧
      ∀ span, ∃ type, c.lookup? x = some type ∧
        r.resolve c (some (.known type)) member span = .ok (.proxied info) := by
  rw [resolve] at run
  obtain ⟨v, mid, hv, run⟩ := Exec.ok_bind.1 run
  rw [Exec.eval_of_unparen hx] at hv
  obtain ⟨var, rfl⟩ := Exec.ok_eval_ident.1 hv
  cases v with
  | object a =>
    obtain ⟨rfl, rfl⟩ := Exec.ok_pure.1 run
    have var' := (grows.var? w.source x).trans var
    obtain ⟨v', hv', alike⟩ := ready.vars x mem _ var'
    cases alike with
    | @object t seen =>
      obtain ⟨type, entity, info, k, known, stores, resolves, typed⟩ := agrees.field hf
      obtain rfl := typed t seen var'
      exact ⟨t, seen, info, k, rfl, stores, rfl, var, hv', fun span => ⟨type, known, resolves span⟩⟩
  | _ => exact (Exec.ok_fail.1 run).elim

-- What lies in a field denotes a place there.
theorem ofField_of_inField {maps : List (Nat × Nat)} {m' : Machine}
    (ready : w.Ready maps m') : ∀ (e : Expr) {lo hi : Machine}
    {place : Place}, e.Fits u → e.InField u → e.names ⊆ w.names → hi.Grows w.machine →
    resolve w.sides.source call w.source e lo = .ok place hi → OfField w.sides place
  | .paren _ inner, lo, hi, place, fits, inField, names, grows, run => by
    rw [resolve] at run
    exact ofField_of_inField ready inner fits inField names grows run
  | .select span base member, lo, hi, place, _, ⟨x, hx, hf⟩, names, grows, run => by
    have mem : x ∈ w.names := names (show x ∈ base.names from Expr.mem_names_of_unparen hx)
    obtain ⟨t, seen, info, k, hp, stores, _⟩ := field_of_select agrees hx hf mem run grows ready
    exact hp ▸ .field (sound.seen_subset x seen) stores
  | .index span base i, lo, hi, place, fits, inField, names, grows, run => by
    rw [resolve_index] at run
    obtain ⟨container, mid, held, run⟩ := Exec.ok_bind.1 run
    obtain ⟨v, _, hv, e⟩ := Exec.ok_bind.1 run
    obtain ⟨rfl, rfl⟩ := Exec.ok_pure.1 e
    have grows' := ((Exec.eval_onlyAllocates _ _ _ i (Expr.isCallFree_of_fits i fits.2)).grows
      hv).trans grows
    rw [Expr.names, List.append_subset] at names
    rw [holder] at held
    split at held
    case isTrue => exact .item (ofField_of_inField ready base fits.1 inField names.1 grows' held)
    case isFalse noPlace => cases base <;> first | exact absurd rfl noPlace | exact inField.elim
  | .ident _ _, _, _, _, _, inField, _, _, _ | .literal _ _, _, _, _, _, inField, _, _, _
  | .binary _ _ _ _, _, _, _, _, inField, _, _, _ | .unary _ _ _, _, _, _, _, inField, _, _, _
  | .composite _ _ _, _, _, _, _, inField, _, _, _
  | .typeOperand _ _, _, _, _, _, inField, _, _, _ => inField.elim
  | .call _ _ _ _, _, _, _, fits, _, _, _, _ => fits.elim

end

end Place

end FieldAccess
