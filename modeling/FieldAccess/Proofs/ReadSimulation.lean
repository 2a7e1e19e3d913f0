import FieldAccess.Proofs.Mimics
import FieldAccess.Proofs.RedirectInversion
import FieldAccess.Typing.TypeContext

namespace FieldAccess

-- How the variables of a method are used.
structure Usage where
  -- The variable that stands in selectors only.
  receiver : Option String
  -- Whether there may be selectors that denote no field.
  strays : Bool
  field : String → String → Prop

mutual

-- Expressions without calls and struct literals, in which variables are used in a certain way.
def Expr.Fits (u : Usage) : Expr → Prop
  | .ident _ x => u.receiver ≠ some x
  | .literal _ _ | .typeOperand _ _ => True
  | .select _ base member =>
    (∃ x, base.unparen.ident? = some x ∧ u.field x member) ∨ u.strays = true ∧ base.Fits u
  | .call _ _ _ _ => False
  | .index _ base i => base.Fits u ∧ i.Fits u
  | .binary _ _ left right => left.Fits u ∧ right.Fits u
  | .unary _ _ operand => operand.Fits u
  | .paren _ inner => inner.Fits u
  | .composite _ type elements =>
    ((∃ element, type = .slice element) ∨ ∃ key value, type = .map key value) ∧
      FitAll u elements

def Expr.FitAll (u : Usage) : List Element → Prop
  | [] => True
  | .positional value :: rest => value.Fits u ∧ FitAll u rest
  | .keyed key value :: rest => key.Fits u ∧ value.Fits u ∧ FitAll u rest

end

-- The fields that selectors denote are ones that records store, of the entities that the objects
-- are of.
structure Usage.Agrees (u : Usage) (r : RedirectContext) (c : TypeContext) (w : View) : Prop where
  receiver : u.receiver = w.sides.receiver
  strays : u.strays = true → w.sides.loose = []
  field : ∀ {x member}, u.field x member → ∃ type entity info k,
    c.lookup? x = some type ∧ w.sides.catalog.Stores entity member info k ∧
    (∀ span, r.resolve c (some (.known type)) member span = .ok (.proxied info)) ∧
    ∀ t ∈ w.sides.seen x, w.source.var? w.machine x = some (.object t.object) → t.entity = entity

theorem Expr.isCallFree_of_unparen {e : Expr} {x : String} (h : e.unparen.ident? = some x) :
    e.isCallFree = true := by
  induction e using Expr.unparen.induct with
  | case1 span inner ih => exact ih h
  | case2 e hp => cases e <;> simp_all [Expr.unparen, Expr.ident?, Expr.isCallFree]

theorem Expr.mem_names_of_unparen {e : Expr} {x : String} (h : e.unparen.ident? = some x) :
    x ∈ e.names := by
  induction e using Expr.unparen.induct with
  | case1 span inner ih => exact ih h
  | case2 e hp => cases e <;> simp_all [Expr.unparen, Expr.ident?, Expr.names]

mutual

theorem Expr.isCallFree_of_fits {u : Usage} : ∀ e : Expr, e.Fits u → e.isCallFree = true
  | .ident _ _, _ | .literal _ _, _ | .typeOperand _ _, _ => rfl
  | .select _ base _, h => by
    rcases h with ⟨x, hx, _⟩ | ⟨_, h⟩
    · change base.isCallFree = true
      exact Expr.isCallFree_of_unparen hx
    · exact Expr.isCallFree_of_fits base h
  | .call _ _ _ _, h => h.elim
  | .index _ base i, h =>
    Bool.and_eq_true_iff.2 ⟨Expr.isCallFree_of_fits base h.1, Expr.isCallFree_of_fits i h.2⟩
  | .binary _ _ left right, h =>
    Bool.and_eq_true_iff.2 ⟨Expr.isCallFree_of_fits left h.1, Expr.isCallFree_of_fits right h.2⟩
  | .unary _ _ operand, h => Expr.isCallFree_of_fits operand h
  | .paren _ inner, h => Expr.isCallFree_of_fits inner h
  | .composite _ _ elements, h => Expr.areCallFree_of_fitAll elements h.2

theorem Expr.areCallFree_of_fitAll {u : Usage} :
    ∀ elements : List Element, Expr.FitAll u elements → Expr.areCallFree elements = true
  | [], _ => rfl
  | .positional value :: rest, h =>
    Bool.and_eq_true_iff.2 ⟨Expr.isCallFree_of_fits value h.1, Expr.areCallFree_of_fitAll rest h.2⟩
  | .keyed key value :: rest, h =>
    Bool.and_eq_true_iff.2 ⟨Bool.and_eq_true_iff.2 ⟨Expr.isCallFree_of_fits key h.1,
      Expr.isCallFree_of_fits value h.2.1⟩, Expr.areCallFree_of_fitAll rest h.2.2⟩

end

namespace Exec

section

variable {p : Program} {call : CallHandler} {f : Frame} {m m₁ : Machine} {v : Value}

theorem ok_eval_ident {span : Span} {x : String} :
    eval p call f (.ident span x) m = .ok v m₁ ↔ f.var? m x = some v ∧ m = m₁ := by
  simp only [eval, binding?, ok_bind, ok_get, ok_pure, ok_orFail, Frame.var?]
  grind

theorem eval_binary {span : Span} {op : BinaryOp} {left right : Expr} (hand : op ≠ .and)
    (hor : op ≠ .or) :
    eval p call f (.binary span op left right) = eval p call f left >>= fun a =>
      eval p call f right >>= fun b => ofExcept (Value.binary op a b) := by
  rw [eval]
  · exact hand
  · exact hor

-- Parentheses around a name change nothing.
theorem eval_of_unparen {e : Expr} {x : String} (h : e.unparen.ident? = some x) :
    eval p call f e = eval p call f (.ident .nowhere x) := by
  induction e using Expr.unparen.induct with
  | case1 span inner ih =>
    rw [eval]
    exact ih h
  | case2 e hp =>
    cases e <;> simp_all [Expr.unparen, Expr.ident?, eval]

-- What is no object has no members.
theorem select_fails {maps : List (Nat × Nat)} {v' : Value} {member : String} {a : Value}
    (h : Value.Alike [] maps v v') : select v member m ≠ .ok a m₁ := by
  intro run
  cases h with
  | object mem => cases mem
  | _ => exact (ok_fail.1 run).elim

end

namespace Mimics

variable {w : View} {base : List (Nat × Nat)} {v v' i i' : Value}

theorem truth (h : w.Alike base v v') :
    Mimics w base (truth v) (truth v') fun _ b b' => b = b' :=
  .orFail fun b hb => ⟨b, by rw [← h.bool?_eq]; exact hb, fun _ _ => rfl⟩

theorem mapKey (h : w.Alike base v v') :
    Mimics w base (mapKey v) (mapKey v') fun _ k k' => k = k' :=
  .orFail fun k hk => ⟨k, by rw [← h.key?_eq]; exact hk, fun _ _ => rfl⟩

theorem truthValue {x x' : Exec Value} (allocates : OnlyAllocates x)
    (h : Mimics w base x x' w.Alike) :
    Mimics w base (do return .bool (← Exec.truth (← x))) (do return .bool (← Exec.truth (← x')))
      w.Alike :=
  .bind allocates (fun _ => .bind (.orFail ..) fun _ => .pure _) h fun _ _ _ _ _ hv =>
    .bind (.orFail ..) (fun _ => .pure _) (truth hv) fun _ b _ _ _ hb =>
      pure fun _ _ => hb ▸ .bool b

theorem itemAt {as bs : List Value} (h : List.Forall₂ (w.Alike base) as bs)
    (hi : w.Alike base i i') : Mimics w base (itemAt as i) (itemAt bs i') w.Alike := by
  refine .bind (R := fun _ n n' => n = n') (.orFail ..) (fun _ => .orFail ..) ?_ ?_
  · exact .orFail fun n hn => ⟨n, by rw [← hi.int?_eq]; exact hn, fun _ _ => rfl⟩
  · rintro maps n _ sub _ rfl
    refine .orFail fun a ha => ?_
    rw [← h.length_eq]
    cases hp : Value.position? n as.length with
    | none => simp [hp] at ha
    | some k =>
      have rel := forall₂_getElem? h k
      simp only [hp, Option.bind_some] at ha ⊢
      rw [ha] at rel
      cases hb : bs[k]? with
      | none => simp [hb] at rel
      | some b =>
        simp only [hb, Option.rel_some_some] at rel
        exact ⟨b, rfl, fun _ sub' => rel.mono (List.Subset.refl _) (List.Subset.trans sub sub')⟩

theorem item (h : w.Alike base v v') (hi : w.Alike base i i') :
    Mimics w base (item v i) (item v' i') w.Alike := by
  cases h with
  | slice items => exact itemAt (Value.alikeItems_iff.1 items) hi
  | map mem =>
    refine .bind (.orFail ..) (fun _ => .bind .get fun _ => .pure _) (mapKey hi) ?_
    rintro maps k _ sub _ rfl
    exact map (sub mem) (f := fun t => (t.get? k).getD .nil)
      fun _ _ _ _ ht => Value.Alike.getD (ht.get? k)
  | nil => exact pure fun _ _ => .nil
  | _ => exact fail _

theorem itemAndPresence (h : w.Alike base v v') (hi : w.Alike base i i') :
    Mimics w base (itemAndPresence v i) (itemAndPresence v' i') fun maps =>
      List.Forall₂ (w.Alike maps) := by
  have single (hm : Mimics w base (Exec.item v i) (Exec.item v' i') w.Alike) :
      Mimics w base (do return [← Exec.item v i]) (do return [← Exec.item v' i']) fun maps =>
        List.Forall₂ (w.Alike maps) :=
    .bind (.item ..) (fun _ => .pure _) hm fun _ _ _ _ _ ha =>
      pure fun _ sub => .cons (ha.mono (List.Subset.refl _) sub) .nil
  cases h with
  | map mem =>
    refine .bind (.orFail ..) (fun _ => .bind .get fun _ => .pure _) (mapKey hi) ?_
    rintro maps k _ sub _ rfl
    let found (t : Table MapKey) : List Value := [(t.get? k).getD .nil, .bool (t.get? k).isSome]
    change Mimics w maps (do return found ((← get).map _)) (do return found ((← get).map _)) _
    refine map (sub mem) fun _ _ _ _ ht => .cons (.getD (ht.get? k)) (.cons ?_ .nil)
    rw [isSome_eq_of_rel (ht.get? k)]
    exact .bool _
  | slice items => exact single (item (.slice items) hi)
  | nil => exact single (item .nil hi)
  | object mem => exact single (item (.object mem) hi)
  | bool b => exact single (item (.bool b) hi)
  | int a => exact single (item (.int a) hi)
  | float a => exact single (item (.float a) hi)
  | str text => exact single (item (.str text) hi)

-- Evaluating in order.
theorem all {xs xs' : List (Exec Value)} (allocates : ∀ x ∈ xs, OnlyAllocates x)
    (h : List.Forall₂ (fun x x' => Mimics w base x x' w.Alike) xs xs') :
    Mimics w base (all xs) (all xs') fun maps => List.Forall₂ (w.Alike maps) := by
  induction h with
  | nil => exact pure fun _ _ => .nil
  | @cons x x' rest rest' head tail ih =>
    have tailAllocates : ∀ x ∈ rest, OnlyAllocates x := fun x hx => allocates x (by simp [hx])
    refine .bind (allocates x (by simp)) (fun _ => .bind (.all tailAllocates) fun _ => .pure _)
      head fun maps a b sub _ ha => ?_
    refine .bind (.all tailAllocates) (fun _ => .pure _)
      ((ih tailAllocates).mono sub fun _ _ _ _ h => h) fun _ _ _ sub' _ hs => ?_
    exact pure fun _ sub'' => .cons (ha.mono (List.Subset.refl _) (List.Subset.trans sub' sub''))
      (hs.imp fun _ _ h => h.mono (List.Subset.refl _) sub'')

-- An element of a literal and the element that it becomes.
structure Entry (w : View) (base : List (Nat × Nat)) (e e' : LiteralEntry) : Prop where
  written : e.written.isSome = e'.written.isSome
  key : Mimics w base e.key e'.key w.Alike
  value : Mimics w base e.value e'.value w.Alike

theorem Entry.mono {base' : List (Nat × Nat)} {e e' : LiteralEntry} (h : Entry w base e e')
    (sub : base ⊆ base') : Entry w base' e e' where
  written := h.written
  key := h.key.mono sub fun _ _ _ _ h => h
  value := h.value.mono sub fun _ _ _ _ h => h

section

variable {entries entries' : List LiteralEntry}
  (allocates : ∀ e ∈ entries, OnlyAllocates e.key ∧ OnlyAllocates e.value)

include allocates

theorem sliceLiteral (h : List.Forall₂ (Entry w base) entries entries') :
    Mimics w base (sliceLiteral entries) (sliceLiteral entries') w.Alike := by
  have values : List.Forall₂ (fun x x' => Mimics w base x x' w.Alike)
      (entries.map (·.value)) (entries'.map (·.value)) := by
    rw [List.forall₂_map_left_iff, List.forall₂_map_right_iff]
    exact h.imp fun _ _ h => h.value
  have allocates : ∀ x ∈ entries.map (·.value), OnlyAllocates x := by
    simpa using fun e he => (allocates e he).2
  refine .bind (.all allocates) (fun _ => .pure _) (all allocates values) fun _ _ _ _ _ hs => ?_
  exact pure fun _ sub => .slice (Value.alikeItems_iff.2
    (hs.imp fun _ _ h => h.mono (List.Subset.refl _) sub))

theorem mapEntries (h : List.Forall₂ (Entry w base) entries entries') {t t' : Table MapKey}
    (ht : Table.Alike (w.Alike base) t t') :
    Mimics w base (mapEntries t entries) (mapEntries t' entries') fun maps =>
      Table.Alike (w.Alike maps) := by
  induction entries generalizing base entries' t t' with
  | nil =>
    cases h
    exact pure fun _ sub => ht.mono fun _ _ h => h.mono (List.Subset.refl _) sub
  | cons e rest ih =>
    cases h with
    | @cons _ e' _ rest' head tail =>
      obtain ⟨keyAllocates, valueAllocates⟩ := allocates e (by simp)
      have restAllocates : ∀ e ∈ rest, OnlyAllocates e.key ∧ OnlyAllocates e.value :=
        fun e he => allocates e (by simp [he])
      have written : ∀ a, e.written = some a → ∃ b, e'.written = some b ∧ ∀ maps, base ⊆ maps →
          True := by
        intro a ha
        have := head.written
        rw [ha] at this
        obtain ⟨b, hb⟩ := Option.isSome_iff_exists.1 this.symm
        exact ⟨b, hb, fun _ _ => trivial⟩
      refine .bind (.orFail ..) (fun _ => .bind keyAllocates fun _ => .bind (.orFail ..) fun _ =>
        .bind valueAllocates fun _ => .mapEntries restAllocates _) (.orFail written) ?_
      intro maps₁ _ _ sub₁ _ _
      refine .bind keyAllocates (fun _ => .bind (.orFail ..) fun _ => .bind valueAllocates fun _ =>
        .mapEntries restAllocates _) (head.mono sub₁).key fun maps₂ k k' sub₂ _ hk => ?_
      refine .bind (.orFail ..) (fun _ => .bind valueAllocates fun _ =>
        .mapEntries restAllocates _) (mapKey hk) ?_
      rintro maps₃ key _ sub₃ _ rfl
      have sub := List.Subset.trans sub₁ (List.Subset.trans sub₂ sub₃)
      refine .bind valueAllocates (fun _ => .mapEntries restAllocates _) (head.mono sub).value
        fun maps₄ v v' sub₄ _ hv => ?_
      have sub := List.Subset.trans sub sub₄
      refine ih restAllocates (tail.imp fun _ _ h => h.mono sub) (.insert ?_ key hv)
      exact ht.mono fun _ _ h => h.mono (List.Subset.refl _) sub

theorem mapLiteral (h : List.Forall₂ (Entry w base) entries entries') :
    Mimics w base (mapLiteral entries) (mapLiteral entries') w.Alike := by
  refine .bind (.mapEntries allocates _) (fun _ => .allocMap _)
    (mapEntries allocates h .empty) fun maps t t' _ _ ht => ?_
  refine ⟨fun {lo hi v maps₁ m'} run grows sub below ready => ?_⟩
  obtain ⟨rfl, rfl, _⟩ := Machine.Grows.allocMap (ok_ofState.1 run)
  have size : ({ lo with maps := lo.maps.push t } : Machine).maps.size = lo.maps.size + 1 := by
    simp
  have le : lo.maps.size < w.machine.maps.size := by
    have := grows.mapsLe
    omega
  have tables := ready.tables.alloc le (fun p hp => Nat.ne_of_lt (below p hp)) (t := t') (by
    rw [grows.map _ (by omega), Machine.map_allocMap]
    exact ht.mono fun _ _ h => h.mono (List.Subset.refl _) sub)
  obtain ⟨_, _, grows'⟩ := Machine.Grows.allocMap (m := m') (t := t') rfl
  refine ⟨.map m'.maps.size, _, [(lo.maps.size, m'.maps.size)], ok_ofState.2 rfl, grows', ?_, tables,
    .map (by simp)⟩
  constructor <;> simp

end

end Mimics

end Exec

section

variable {r : RedirectContext} {c : TypeContext} {u : Usage} {w : View} {t : TypedExpr}
  {base : List (Nat × Nat)}

namespace RedirectContext

theorem value_of_unparen {e : Expr} {x : String} (h : e.unparen.ident? = some x) :
    r.value c e = .ok ⟨e, (c.lookup? x).map .known⟩ := by
  induction e using Expr.unparen.induct with
  | case1 span inner ih =>
    rw [value, ih h]
    rfl
  | case2 e hp =>
    cases e <;> simp only [Expr.unparen, Expr.ident?, Option.some.injEq, reduceCtorEq] at h
    · subst h
      rfl
    · exact absurd rfl (hp _ _)

-- A selector on a variable that denotes a field becomes a call of the accessor.
theorem value_field (agrees : u.Agrees r c w) {span : Span} {e : Expr} {x member : String}
    (hx : e.unparen.ident? = some x) (hf : u.field x member)
    (h : r.value c (.select span e member) = .ok t) :
    ∃ entity info k, w.sides.catalog.Stores entity member info k ∧ t = info.read e span ∧
      ∀ t ∈ w.sides.seen x, w.source.var? w.machine x = some (.object t.object) →
        t.entity = entity := by
  obtain ⟨type, entity, info, k, ht, stores, resolves, typed⟩ := agrees.field hf
  simp only [value, value_of_unparen hx, ht, Option.map_some, ok_bind, Except.ok.injEq,
    exists_eq_left', resolves] at h
  exact ⟨entity, info, k, stores, (ok_pure.1 h).symm, typed⟩

end RedirectContext

namespace Exec

variable {call : CallHandler}

-- An object gives what its field holds.
theorem ok_select_object {a : Nat} {member : String} {m m₁ : Machine} {v : Value}
    (h : select (.object a) member m = .ok v m₁)
    (has : a < m.objects.size → ∃ v, (m.object a).fields.get? member = some v) :
    a < m.objects.size ∧ (m.object a).fields.get? member = some v ∧ m = m₁ := by
  simp only [select, ok_bind, ok_get] at h
  obtain ⟨_, _, ⟨rfl, rfl⟩, h⟩ := h
  by_cases ha : a < m.objects.size
  · obtain ⟨u, hu⟩ := has ha
    simp only [hu, ok_pure] at h ⊢
    exact ⟨ha, congrArg some h.1, h.2⟩
  · have : m.object a = default := by
      simp [Machine.object, Array.getElem?_eq_none (Nat.le_of_not_lt ha)]
    simp only [Machine.recordOf?, this] at h
    exact (ok_fail.1 h).elim

-- The value of the call of a method without arguments.
theorem eval_method {p : Program} {f : Frame} {span : Span} {e : Expr} {name : String}
    {m m₁ m₂ : Machine} {v receiver : Value} (he : eval p call f e m = .ok receiver m₁)
    (hc : callMethod p call receiver name [] m₁ = .ok [v] m₂) :
    eval p call f (.call span (.select span e name) [] []) m = .ok v m₂ := by
  simp only [eval, callResults, Exec.receiver, actions, ok_bind]
  exact ⟨[v], m₂, ⟨receiver, m₁, he, [], m₁, rfl, hc⟩, rfl⟩

-- The accessor gives what the field holds.
theorem field_mimics (sound : w.sides.Sound) (agrees : u.Agrees r c w) {span : Span} {e : Expr}
    {x member : String} (hx : e.unparen.ident? = some x) (mem : x ∈ w.names)
    (hf : u.field x member) (h : r.value c (.select span e member) = .ok t)
    (reads : w.reads = true) :
    Mimics w base (eval w.sides.source call w.source (.select span e member))
      (eval w.sides.target w.sides.call w.target t.expr) w.Alike where
  run {lo hi v maps m'} run grows sub below ready := by
    obtain ⟨entity, info, k, stores, rfl, typed⟩ := RedirectContext.value_field agrees hx hf h
    rw [eval] at run
    obtain ⟨b, _, hb, run⟩ := ok_bind.1 run
    rw [eval_of_unparen hx] at hb
    obtain ⟨var, rfl⟩ := ok_eval_ident.1 hb
    have grown : lo.Grows w.machine := ((OnlyAllocates.select _ _).grows run).trans grows
    rw [← grown.var?] at var
    obtain ⟨b', var', alike⟩ := ready.vars x mem b var
    cases alike with
    | object seen =>
      rename_i t
      have mem := sound.seen_subset x seen
      have mirrored := ready.mirrored reads t mem
      obtain rfl := typed t seen var
      obtain ⟨u, hu, kind⟩ := ready.inKind reads t mem stores
      obtain ⟨_, hv, same⟩ := ok_select_object run fun lt => ⟨u, by rw [← grown.object _ lt, hu]⟩
      subst same
      obtain rfl : u = v := by simpa [← grown.object _ ‹_›, hu] using hv
      have data := mirrored.data stores
      rw [hu] at data
      cases hd : (m'.record t.record).data.get? info.key with
      | none => simp [hd] at data
      | some v' =>
        rw [hd, Option.rel_some_some] at data
        rw [data.eq_of_isAtom (BasicKind.isAtom_of_holds kind)] at hd
        refine ⟨u, m', [], ?_, .refl _, .nil, ready.tables, .of_isAtom ?_⟩
        · refine eval_method ?_ (sound.read mem stores mirrored.toWraps hd kind)
          rw [eval_of_unparen hx]
          exact ok_eval_ident.2 ⟨var', rfl⟩
        · exact BasicKind.isAtom_of_holds kind
    | _ => exact (ok_fail.1 run).elim

-- A selector that denotes no field of an object has no value.
theorem stray_mimics {span : Span} {e : Expr} {member : String} {x' : Exec Value} {e' : Exec Value}
    (loose : w.sides.loose = [])
    (he : Mimics w base (eval w.sides.source call w.source e) e' w.Alike) :
    Mimics w base (eval w.sides.source call w.source (.select span e member)) x' w.Alike where
  run run grows sub below ready := by
    rw [eval] at run
    obtain ⟨v, mid, run, selected⟩ := ok_bind.1 run
    have grows := ((OnlyAllocates.select _ _).grows selected).trans grows
    obtain ⟨v', _, _, _, _, _, _, alike⟩ := he.run run grows sub below ready
    simp only [View.Alike, loose] at alike
    exact absurd selected (select_fails alike)

mutual

-- The value of a redirected expression corresponds to that of the expression as it was.
theorem eval_mimics (sound : w.sides.Sound) (agrees : u.Agrees r c w) :
    ∀ (e : Expr) {t : TypedExpr} {base : List (Nat × Nat)},
    r.value c e = .ok t → e.Fits u → e.names ⊆ w.names →
    (w.reads = true ∨ t.expr.isCallFree = true) →
    Mimics w base (eval w.sides.source call w.source e)
      (eval w.sides.target w.sides.call w.target t.expr) w.Alike
  | .ident span x, t, base, h, fits, names, _ => by
    obtain rfl := FieldAccess.ok_pure.1 h
    refine ⟨fun {lo hi v maps m'} run grows sub below ready => ?_⟩
    obtain ⟨var, rfl⟩ := ok_eval_ident.1 run
    rw [← grows.var?] at var
    obtain ⟨v', var', alike⟩ := ready.vars x (names (by simp [Expr.names])) v var
    have receiver : w.sides.receiver ≠ some x := agrees.receiver ▸ fits
    rw [Sides.seen, if_neg receiver] at alike
    exact ⟨v', m', [], ok_eval_ident.2 ⟨var', rfl⟩, .refl _, .nil, ready.tables, alike⟩
  | .literal _ l, t, base, h, _, _, _ => by
    obtain rfl := FieldAccess.ok_pure.1 h
    rw [eval, eval]
    exact .pure fun _ _ => .of_isAtom (by cases l <;> rfl)
  | .typeOperand _ _, t, base, h, _, _, _ => by
    rw [eval]
    exact .fail _
  | .select span e member, t, base, h, fits, names, reads => by
    rcases fits with ⟨x, hx, hf⟩ | ⟨strays, fits⟩
    · have reads : w.reads = true := by
        obtain ⟨_, _, _, _, rfl, _⟩ := RedirectContext.value_field agrees hx hf h
        simpa [FieldInfo.read, Expr.isCallFree] using reads
      exact field_mimics sound agrees hx (names (Expr.mem_names_of_unparen (e := e) hx)) hf h reads
    · obtain ⟨te, he, form⟩ := RedirectContext.ok_value_select h
      refine stray_mimics (agrees.strays strays)
        (eval_mimics sound agrees e he fits names (reads.imp_right fun free => ?_))
      rcases form with ⟨info, rfl⟩ | form
      · cases free
      · rwa [form] at free
  | .call _ _ _ _, _, _, _, fits, _, _ => fits.elim
  | .index span e i, t, base, h, fits, names, reads => by
    obtain ⟨te, ti, he, hi, ht⟩ := RedirectContext.ok_value_index h
    rw [Expr.names, List.append_subset] at names
    simp only [ht, Expr.isCallFree, Bool.and_eq_true] at reads
    rw [ht]
    have callFree := Expr.isCallFree_of_fits i fits.2
    rw [eval, eval]
    refine .bind (eval_onlyAllocates _ _ _ _ (Expr.isCallFree_of_fits e fits.1))
      (fun _ => .bind (eval_onlyAllocates _ _ _ _ callFree) fun _ => .item ..)
      (eval_mimics sound agrees e he fits.1 names.1 (reads.imp_right And.left))
      fun maps v v' _ _ hv => ?_
    refine .bind (eval_onlyAllocates _ _ _ _ callFree) (fun _ => .item ..)
      (eval_mimics sound agrees i hi fits.2 names.2 (reads.imp_right And.right))
      fun maps k k' sub _ hk => ?_
    exact .item (hv.mono (List.Subset.refl _) sub) hk
  | .binary span op left right, t, base, h, fits, names, reads => by
    obtain ⟨tl, tr, hl, hr, rfl⟩ := RedirectContext.ok_value_binary h
    rw [Expr.names, List.append_subset] at names
    simp only [Expr.isCallFree, Bool.and_eq_true] at reads
    have leftAllocates := eval_onlyAllocates w.sides.source call w.source left
      (Expr.isCallFree_of_fits left fits.1)
    have rightAllocates := eval_onlyAllocates w.sides.source call w.source right
      (Expr.isCallFree_of_fits right fits.2)
    have leftMimics : Mimics w base _ _ w.Alike :=
      eval_mimics sound agrees left hl fits.1 names.1 (reads.imp_right And.left)
    have rightMimics {base} : Mimics w base _ _ w.Alike :=
      eval_mimics sound agrees right hr fits.2 names.2 (reads.imp_right And.right)
    by_cases hand : op = .and
    · subst hand
      rw [eval, eval]
      refine .bind leftAllocates (fun v => (OnlyAllocates.orFail _ _).bind fun b => ?_) leftMimics
        fun maps v v' _ _ hv => .bind (.orFail ..) (fun b => ?_) (.truth hv) ?_
      · exact .ite (.truthValue rightAllocates) (.pure _)
      · exact .ite (.truthValue rightAllocates) (.pure _)
      · rintro _ b _ _ _ rfl
        cases b
        · exact .pure fun _ _ => .bool _
        · exact .truthValue rightAllocates rightMimics
    · by_cases hor : op = .or
      · subst hor
        rw [eval, eval]
        refine .bind leftAllocates (fun v => (OnlyAllocates.orFail _ _).bind fun b => ?_) leftMimics
          fun maps v v' _ _ hv => .bind (.orFail ..) (fun b => ?_) (.truth hv) ?_
        · exact .ite (.pure _) (.truthValue rightAllocates)
        · exact .ite (.pure _) (.truthValue rightAllocates)
        · rintro _ b _ _ _ rfl
          cases b
          · exact .truthValue rightAllocates rightMimics
          · exact .pure fun _ _ => .bool _
      · rw [eval_binary hand hor, eval_binary hand hor]
        refine .bind leftAllocates (fun _ => .bind rightAllocates fun _ => .ofExcept _) leftMimics
          fun maps a a' _ _ ha => ?_
        refine .bind rightAllocates (fun _ => .ofExcept _) rightMimics
          fun maps b b' sub pm hb => .ofExcept fun v hv => ?_
        obtain ⟨hv', atom⟩ := (ha.mono (List.Subset.refl _) sub).binary sound.loose_apart pm hb hv
        exact ⟨v, hv', fun _ _ => .of_isAtom atom⟩
  | .unary span op operand, t, base, h, fits, names, reads => by
    obtain ⟨te, he, ht⟩ := RedirectContext.ok_value_unary h
    rw [ht] at reads ⊢
    rw [eval, eval]
    refine .bind (eval_onlyAllocates _ _ _ _ (Expr.isCallFree_of_fits operand fits))
      (fun _ => .ofExcept _) (eval_mimics sound agrees operand he fits names reads)
      fun maps v v' _ _ hv => ?_
    refine .ofExcept fun a ha => ?_
    obtain ⟨a', ha', alike⟩ := hv.unary ha
    exact ⟨a', ha', fun _ sub => alike.mono (List.Subset.refl _) sub⟩
  | .paren span inner, t, base, h, fits, names, reads => by
    obtain ⟨te, he, rfl⟩ := RedirectContext.ok_value_paren h
    rw [eval, eval]
    exact eval_mimics sound agrees inner he fits names reads
  | .composite span type elements, t, base, h, fits, names, reads => by
    obtain ⟨elements', he, ht⟩ := RedirectContext.ok_value_composite h
    rw [ht] at reads ⊢
    have mimics : List.Forall₂ (Mimics.Entry w base) _ _ :=
      entries_mimics sound agrees elements he fits.2 names reads
    have allocates := entries_onlyAllocates w.sides.source call w.source elements
      (Expr.areCallFree_of_fitAll elements fits.2)
    rcases fits.1 with ⟨_, rfl⟩ | ⟨_, _, rfl⟩
    · rw [eval, eval]
      exact .sliceLiteral allocates mimics
    · rw [eval, eval]
      exact .mapLiteral allocates mimics

theorem entries_mimics (sound : w.sides.Sound) (agrees : u.Agrees r c w) :
    ∀ (elements : List Element) {elements' : List Element}
    {base : List (Nat × Nat)}, r.elements c elements = .ok elements' → Expr.FitAll u elements →
    namesOfElements elements ⊆ w.names →
    (w.reads = true ∨ Expr.areCallFree elements' = true) →
    List.Forall₂ (Mimics.Entry w base) (entries w.sides.source call w.source elements)
      (entries w.sides.target w.sides.call w.target elements')
  | [], _, _, h, _, _, _ => by
    obtain rfl := FieldAccess.ok_pure.1 h
    exact .nil
  | .positional value :: rest, _, base, h, fits, names, reads => by
    obtain ⟨tv, rest', hv, hr, rfl⟩ := RedirectContext.ok_elements_positional h
    rw [namesOfElements, List.append_subset] at names
    simp only [Expr.areCallFree, Bool.and_eq_true] at reads
    refine .cons ⟨rfl, .fail _, ?_⟩ ?_
    · exact eval_mimics sound agrees value hv fits.1 names.1 (reads.imp_right And.left)
    · exact entries_mimics sound agrees rest hr fits.2 names.2 (reads.imp_right And.right)
  | .keyed key value :: rest, _, base, h, fits, names, reads => by
    obtain ⟨tk, tv, rest', hk, hv, hr, rfl⟩ := RedirectContext.ok_elements_keyed h
    rw [namesOfElements, List.append_subset, List.append_subset] at names
    simp only [Expr.areCallFree, Bool.and_eq_true] at reads
    refine .cons ⟨rfl, ?_, ?_⟩ ?_
    · exact eval_mimics sound agrees key hk fits.1 names.1.1 (reads.imp_right (·.1.1))
    · exact eval_mimics sound agrees value hv fits.2.1 names.1.2 (reads.imp_right (·.1.2))
    · exact entries_mimics sound agrees rest hr fits.2.2 names.2 (reads.imp_right And.right)

end

-- An expression that is no item of a map gives all its values where it gives its value.
theorem evalAll_of_eval {p : Program} {f : Frame} {e : Expr} {m m₁ : Machine} {v : Value}
    (noItem : ∀ span b i, e ≠ .index span b i) (h : eval p call f e m = .ok v m₁) :
    evalAll p call f e m = .ok [v] m₁ := by
  unfold evalAll
  split
  · rw [eval] at h
    obtain ⟨vs, _, hvs, one⟩ := ok_bind.1 h
    unfold oneResult at one
    split at one
    · obtain ⟨rfl, rfl⟩ := ok_pure.1 one
      exact hvs
    · exact (ok_failType.1 one).elim
  · exact absurd rfl (noItem _ _ _)
  · exact ok_bind.2 ⟨v, m₁, h, rfl⟩

theorem eval_of_evalAll {p : Program} {f : Frame} {e : Expr} {m m₁ : Machine} {vs : List Value}
    (free : e.isCallFree = true) (noItem : ∀ span b i, e ≠ .index span b i)
    (h : evalAll p call f e m = .ok vs m₁) : ∃ v, eval p call f e m = .ok v m₁ ∧ vs = [v] := by
  unfold evalAll at h
  split at h
  · cases free
  · exact absurd rfl (noItem _ _ _)
  · obtain ⟨v, _, hv, e⟩ := ok_bind.1 h
    obtain ⟨rfl, rfl⟩ := ok_pure.1 e
    exact ⟨v, hv, rfl⟩

theorem value_noItem {e : Expr} (h : r.value c e = .ok t)
    (noItem : ∀ span b i, e ≠ .index span b i) : ∀ span b i, t.expr ≠ .index span b i := by
  intro span b i ht
  cases e with
  | index => exact noItem _ _ _ rfl
  | select =>
    obtain ⟨_, _, form⟩ := RedirectContext.ok_value_select h
    rcases form with ⟨_, rfl⟩ | form
    · cases ht
    · simp [form] at ht
  | call =>
    simp only [RedirectContext.value, FieldAccess.ok_bind, FieldAccess.ok_pure] at h
    obtain ⟨_, _, _, _, rfl⟩ := h
    cases ht
  | binary =>
    obtain ⟨_, _, _, _, rfl⟩ := RedirectContext.ok_value_binary h
    cases ht
  | unary =>
    obtain ⟨_, _, form⟩ := RedirectContext.ok_value_unary h
    simp [form] at ht
  | paren =>
    obtain ⟨_, _, rfl⟩ := RedirectContext.ok_value_paren h
    cases ht
  | composite =>
    obtain ⟨_, _, form⟩ := RedirectContext.ok_value_composite h
    simp [form] at ht
  | ident | literal | typeOperand =>
    obtain rfl := FieldAccess.ok_pure.1 h
    cases ht

section

variable (sound : w.sides.Sound) (agrees : u.Agrees r c w)

include sound agrees

theorem evalAll_mimics {e : Expr} (h : r.value c e = .ok t) (fits : e.Fits u)
    (names : e.names ⊆ w.names) (reads : w.reads = true ∨ t.expr.isCallFree = true) :
    Mimics w base (evalAll w.sides.source call w.source e)
      (evalAll w.sides.target w.sides.call w.target t.expr)
      fun maps => List.Forall₂ (w.Alike maps) := by
  by_cases item : ∃ span b i, e = .index span b i
  · obtain ⟨span, b, i, rfl⟩ := item
    obtain ⟨tb, ti, hb, hi, ht⟩ := RedirectContext.ok_value_index h
    rw [Expr.names, List.append_subset] at names
    simp only [ht, Expr.isCallFree, Bool.and_eq_true] at reads
    rw [ht]
    have callFree := Expr.isCallFree_of_fits i fits.2
    refine .bind (eval_onlyAllocates _ _ _ _ (Expr.isCallFree_of_fits b fits.1))
      (fun _ => .bind (eval_onlyAllocates _ _ _ _ callFree) fun _ => .itemAndPresence ..)
      (eval_mimics sound agrees b hb fits.1 names.1 (reads.imp_right And.left))
      fun maps v v' _ _ hv => ?_
    refine .bind (eval_onlyAllocates _ _ _ _ callFree) (fun _ => .itemAndPresence ..)
      (eval_mimics sound agrees i hi fits.2 names.2 (reads.imp_right And.right))
      fun maps k k' sub _ hk => ?_
    exact .itemAndPresence (hv.mono (List.Subset.refl _) sub) hk
  · have noItem : ∀ span b i, e ≠ .index span b i := fun _ _ _ h => item ⟨_, _, _, h⟩
    refine ⟨fun run grows sub below ready => ?_⟩
    obtain ⟨v, single, rfl⟩ := eval_of_evalAll (Expr.isCallFree_of_fits e fits) noItem run
    obtain ⟨v', m'₁, ext, run', grows', fresh, tables, alike⟩ :=
      (eval_mimics sound agrees e h fits names reads).run single grows sub below ready
    exact ⟨[v'], m'₁, ext, evalAll_of_eval (value_noItem h noItem) run', grows', fresh, tables,
      .cons alike .nil⟩

theorem all_mimics {es : List Expr} {ts : List TypedExpr}
    (h : List.Forall₂ (fun e t => r.value c e = .ok t) es ts) (fits : ∀ e ∈ es, e.Fits u)
    (names : ∀ e ∈ es, e.names ⊆ w.names)
    (reads : w.reads = true ∨ ∀ t ∈ ts, t.expr.isCallFree = true) :
    Mimics w base (all (actions w.sides.source call w.source es))
      (all (actions w.sides.target w.sides.call w.target (ts.map (·.expr))))
      fun maps => List.Forall₂ (w.Alike maps) := by
  rw [actions_eq, actions_eq]
  refine .all (fun x hx => ?_) ?_
  · obtain ⟨e, he, hx⟩ := List.mem_map.1 hx
    exact hx ▸ eval_onlyAllocates _ _ _ e (Expr.isCallFree_of_fits e (fits e he))
  · induction h with
    | nil => exact .nil
    | @cons e t es ts head tail ih =>
      refine .cons ?_ (ih (fun e he => fits e (by simp [he])) (fun e he => names e (by simp [he]))
        (reads.imp_right fun free t ht => free t (by simp [ht])))
      exact eval_mimics sound agrees e head (fits e (by simp)) (names e (by simp))
        (reads.imp_right fun free => free t (by simp))

theorem evalFor_mimics (count : Nat) {es : List Expr} {ts : List TypedExpr}
    (h : List.Forall₂ (fun e t => r.value c e = .ok t) es ts) (fits : ∀ e ∈ es, e.Fits u)
    (names : ∀ e ∈ es, e.names ⊆ w.names)
    (reads : w.reads = true ∨ ∀ t ∈ ts, t.expr.isCallFree = true) :
    Mimics w base (evalFor w.sides.source call w.source count es)
      (evalFor w.sides.target w.sides.call w.target count (ts.map (·.expr)))
      fun maps => List.Forall₂ (w.Alike maps) := by
  have severally : Mimics w base (all (actions w.sides.source call w.source es))
      (all (actions w.sides.target w.sides.call w.target (ts.map (·.expr))))
      fun maps => List.Forall₂ (w.Alike maps) := all_mimics sound agrees h fits names reads
  cases h with
  | nil => exact severally
  | @cons e t es ts head tail =>
    cases tail with
    | cons => exact severally
    | nil =>
      have callFree := Expr.isCallFree_of_fits e (fits e (by simp))
      have reads := reads.imp_right fun free => free t (by simp)
      have names := names e (by simp)
      have fits := fits e (by simp)
      simp only [List.map_cons, List.map_nil, evalFor]
      split
      · refine .bind (evalAll_onlyAllocates _ _ _ callFree) (fun vs => ?_)
          (evalAll_mimics sound agrees head fits names reads) fun maps vs vs' _ _ hs => ?_
        · split
          · exact .pure _
          · exact .fail _
        · rw [← hs.length_eq]
          split
          · exact .pure fun _ sub => hs.imp fun _ _ h => h.mono (List.Subset.refl _) sub
          · exact .fail _
      · refine .bind (eval_onlyAllocates _ _ _ e callFree) (fun _ => .pure _)
          (eval_mimics sound agrees e head fits names reads) fun maps v v' _ _ hv => ?_
        exact .pure fun _ sub => .cons (hv.mono (List.Subset.refl _) sub) .nil

end

end Exec

end

end FieldAccess
