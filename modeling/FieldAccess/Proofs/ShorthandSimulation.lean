import FieldAccess.Proofs.FieldAssignment
import FieldAccess.Proofs.PlaceContents
import FieldAccess.Proofs.ShorthandRuns

namespace FieldAccess

namespace Place

section

variable {r : RedirectContext} {c : TypeContext} {u : Usage} {w : View} {call : CallHandler}
  {maps : List (Nat × Nat)} {lo hi m' : Machine} (sound : w.sides.Sound) (agrees : u.Agrees r c w)
  (reads : w.reads = true) (ready : w.Ready maps m') (below : Below maps lo.maps.size)
  (bounded : ∀ t ∈ w.sides.twins, t.object < lo.objects.size)

include sound agrees reads ready below bounded

-- To evaluate a target takes the steps that lead to its place, and gives what the place holds.
theorem eval_of_place : ∀ {e : Expr} {place : Place} {t : TypedExpr} {v : Value} {hi : Machine},
    r.value c e = .ok t → e.Fits u → e.names ⊆ w.names →
    resolve w.sides.source call w.source e lo = .ok place hi → hi.Grows w.machine →
    place.peek? w.source w.machine = some v →
    Exec.eval w.sides.source call w.source e lo = .ok v hi
  | .ident _ x, _, _, _, _, _, _, _, run, grows, held => by
    rw [resolve] at run
    obtain ⟨rfl, rfl⟩ := Exec.ok_pure.1 run
    split at held
    · cases held
    · exact Exec.ok_eval_ident.2 ⟨(grows.var? w.source x).symm.trans held, rfl⟩
  | .paren _ inner, _, _, _, _, h, fits, names, run, grows, held => by
    obtain ⟨_, inside, -⟩ := RedirectContext.ok_value_paren h
    rw [resolve] at run
    rw [Exec.eval]
    exact eval_of_place inside fits names run grows held
  | .select span base member, place, t, v, hi, h, fits, names, run, grows, held => by
    by_cases inField : (Expr.select span base member).InField u
    · obtain ⟨x, hx, hf⟩ := inField
      have mem : x ∈ w.names := names (show x ∈ base.names from Expr.mem_names_of_unparen hx)
      obtain ⟨t, seen, info, k, rfl, stores, rfl, var, -, -⟩ :=
        field_of_select agrees hx hf mem run grows ready
      rw [peek?, grows.object _ (bounded t (sound.seen_subset x seen))] at held
      rw [Exec.eval, Exec.eval_of_unparen hx]
      refine Exec.ok_bind.2 ⟨_, _, Exec.ok_eval_ident.2 ⟨var, rfl⟩, ?_⟩
      simp only [Exec.select, Exec.get_bind, held]
      rfl
    · -- What denotes no field has no place.
      have stray : Exec.Mimics w maps
          (resolve w.sides.source call w.source (.select span base member)) (Exec.fail .callDepth)
          (Place.Alike w.sides w.names) :=
        stray_mimics sound agrees h fits inField names reads
      obtain ⟨_, _, _, failed, _⟩ := stray.run run grows (List.Subset.refl _) below ready
      exact (Exec.ok_fail.1 failed).elim
  | .index span base i, place, t, v, hi, h, fits, names, run, grows, held => by
    obtain ⟨tb, ti, hb, hi, -⟩ := RedirectContext.ok_value_index h
    rw [Expr.names, List.append_subset] at names
    have freeIndex := Expr.isCallFree_of_fits i fits.2
    rw [resolve_index] at run
    obtain ⟨container, m₁, reached, run⟩ := Exec.ok_bind.1 run
    obtain ⟨index, m₂, evaluated, run⟩ := Exec.ok_bind.1 run
    obtain ⟨rfl, rfl⟩ := Exec.ok_pure.1 run
    obtain ⟨held, inside⟩ : ∃ c, container.peek? w.source w.machine = some c ∧
        c.itemIn? w.machine index = some v := Option.bind_eq_some_iff.1 held
    have grows₂ := (Exec.eval_onlyAllocates _ _ _ i freeIndex).grows evaluated
    have whole : Exec.eval w.sides.source call w.source base lo = .ok held m₁ := by
      rw [holder] at reached
      split at reached
      · exact eval_of_place hb fits.1 names.1 reached (grows₂.trans grows) inside.1
      · obtain ⟨_, got, rfl⟩ := Exec.ok_map.1 reached
        obtain rfl := Option.some.inj inside.1
        exact got
    -- The container was there before, so it holds what it held.
    obtain ⟨held', _, ext, -, -, fresh, -, alike⟩ :=
      (Exec.eval_mimics sound agrees base hb fits.1 names.1 (.inl reads)).run whole
        (grows₂.trans grows) (List.Subset.refl _) below ready
    have same : held.itemIn? m₂ index = some v := by
      rw [← inside.2]
      cases alike with
      | map mem =>
        have lt := below.append fresh
          ((Exec.eval_onlyAllocates _ _ _ base (Expr.isCallFree_of_fits base fits.1)).grows
            whole).mapsLe _ mem
        simp only [Value.itemIn?, grows.map _ (Nat.lt_of_lt_of_le lt grows₂.mapsLe)]
      | _ => rfl
    rw [Exec.eval]
    exact Exec.ok_bind.2 ⟨_, m₁, whole, Exec.ok_bind.2 ⟨index, _, evaluated,
      Exec.item_of_itemIn? same⟩⟩
  | .literal _ _, _, _, _, _, _, _, _, run, _, _ | .binary _ _ _ _, _, _, _, _, _, _, _, run, _, _
  | .unary _ _ _, _, _, _, _, _, _, _, run, _, _ | .composite _ _ _, _, _, _, _, _, _, _, run, _, _
  | .typeOperand _ _, _, _, _, _, _, _, _, run, _, _ => by
    rw [resolve] at run
    · exact (Exec.ok_fail.1 run).elim
    all_goals simp
  | .call _ _ _ _, _, _, _, _, _, fits, _, _, _, _ => fits.elim

end

end Place

namespace Step

-- An arithmetic shorthand reads its target, computes, and writes.
theorem ok_update {p : Program} {call : CallHandler} {op : BinaryOp} {target value : Expr}
    {f f₁ : Frame} {m m₁ : Machine} {flow : Flow} (arithmetic : op.isArithmetic = true)
    (run : update p call op target (eval p call value) f m = .ok (flow, f₁) m₁) :
    flow = .next ∧ ∃ place m₂ current v m₃ result, Place.resolve p call f target m = .ok place m₂ ∧
      place.peek? f m₂ = some current ∧ Exec.eval p call f value m₂ = .ok v m₃ ∧
      Value.binary op current v = .ok result ∧ place.write result f m₃ = .ok ((), f₁) m₁ := by
  obtain ⟨heq, hne, -, -⟩ := BinaryOp.ne_of_isArithmetic arithmetic
  obtain ⟨place, _, m₂, resolving, run⟩ := ok_bind.1 run
  obtain ⟨resolved, rfl⟩ := ok_reading.1 resolving
  obtain ⟨current, _, _, read, run⟩ := ok_bind.1 run
  obtain ⟨v, _, m₃, valued, run⟩ := ok_bind.1 run
  obtain ⟨evaluated, rfl⟩ := ok_reading.1 valued
  obtain ⟨result, _, _, computing, run⟩ := ok_bind.1 run
  obtain ⟨lifted, rfl⟩ := ok_lift.1 computing
  obtain ⟨computed, rfl⟩ := Exec.ok_ofExcept.1 lifted
  obtain ⟨_, _, _, written, run⟩ := ok_bind.1 run
  obtain ⟨rfl, rfl, rfl⟩ := ok_pure.1 run
  obtain ⟨held, rfl, rfl⟩ := Place.ok_read read (Value.binary_ne_nil heq hne computed)
  exact ⟨rfl, place, _, current, v, m₃, result, resolved, held, evaluated, computed, written⟩

theorem assign_single {p : Program} {call : CallHandler} {target value : Expr} {f f₁ : Frame}
    {m m₁ m₂ m₃ : Machine} {place : Place} {v : Value}
    (resolved : Place.resolve p call f target m = .ok place m₁)
    (evaluated : Exec.eval p call f value m₁ = .ok v m₂)
    (written : place.write v f m₂ = .ok ((), f₁) m₃) :
    assign p call [target] .assign [value] f m = .ok (.next, f₁) m₃ := by
  refine ok_assign.2 ⟨[place], m₁, [v], m₂, ?_, ?_, ?_, rfl⟩
  · exact Exec.ok_bind.2 ⟨place, m₁, resolved, rfl⟩
  · rw [List.length_singleton, Exec.evalFor, if_neg (Nat.lt_irrefl 1)]
    exact Exec.ok_bind.2 ⟨v, m₂, evaluated, rfl⟩
  · exact ok_bind.2 ⟨(), f₁, m₃, written, rfl⟩

section

variable {S : Sides} {N : List String} {maps : List (Nat × Nat)} {depth : Nat} {u : Usage}
  {r : RedirectContext} {c : TypeContext} {call : CallHandler} {f f₁ f' : Frame}
  {m m₁ m' : Machine} {flow : Flow} {op : BinaryOp} {target value : Expr} {t : Target}
  {tv : TypedExpr} {span : Span} (sound : S.Sound) (agrees : u.Agrees r c (S.view N f f' m))
  (arithmetic : op.isArithmetic = true) (hvalue : r.value c (.binary span op target value) = .ok tv)
  (fits : target.Fits u ∧ value.Fits u) (names : target.names ⊆ N ∧ value.names ⊆ N)

include sound agrees arithmetic hvalue fits names

-- A shorthand on a field does just what it stands for: nothing is allocated to find the field.
theorem assign_of_update_field (sync : Sync S N depth maps f m f' m') {at_ : Span} {base : Expr}
    {x member : String} (shape : target.unparen = .select at_ base member)
    (hx : base.unparen.ident? = some x)
    (hf : u.field x member)
    (run : update S.source call op target (eval S.source call value) f m = .ok (flow, f₁) m₁) :
    flow = .next ∧
      assign S.source call [target] .assign [.binary span op target value] f m =
        .ok (.next, f₁) m₁ := by
  obtain ⟨-, -, hand, hor⟩ := BinaryOp.ne_of_isArithmetic arithmetic
  obtain ⟨rfl, place, m₂, current, v, m₃, result, resolved, held, evaluated, computed, written⟩ :=
    ok_update arithmetic run
  obtain ⟨tt, -, ht, -, -⟩ := RedirectContext.ok_value_binary hvalue
  have grows := (Place.resolve_onlyAllocates _ _ _ target
    (Expr.isCallFree_of_fits target fits.1)).grows resolved
  have ready : (S.view N f f' m₂).Ready maps m' := sync.ready grows sync.inKind
  have agrees := agrees.grow grows
  have below : Below maps m.maps.size := fun p hp => (sync.tables.bounded p hp).1
  have bounded : ∀ t ∈ S.twins, t.object < m.objects.size := fun t ht => (sync.mirrored t ht).object
  have again : Exec.eval S.source call f target m = .ok current m₂ :=
    Place.eval_of_place sound agrees rfl ready below bounded ht fits.1 names.1 resolved (.refl _) held
  obtain rfl : m₂ = m := by
    have resolved := resolved
    rw [Place.resolve_unparen, shape] at resolved
    have mem : x ∈ N := names.1 (by
      rw [Expr.names_unparen, shape]
      exact Expr.mem_names_of_unparen (e := base) hx)
    obtain ⟨_, _, _, _, _, _, same, _⟩ :=
      Place.field_of_select agrees hx hf mem resolved (.refl _) ready
    exact same
  refine ⟨rfl, assign_single resolved ?_ written⟩
  rw [Exec.eval_binary hand hor]
  exact Exec.ok_bind.2 ⟨_, _, again, Exec.ok_bind.2 ⟨v, m₃, evaluated,
    Exec.ok_ofExcept.2 ⟨computed, rfl⟩⟩⟩

-- A shorthand on anything else, written out and redirected, does the same. What the second
-- evaluation of the target allocates is garbage.
theorem update_kept (sync : Sync S N depth maps f m f' m') (htarget : r.target c target = .ok t)
    (noField : t.isField = false)
    (run : update S.source call op target (eval S.source call value) f m = .ok (flow, f₁) m₁) :
    flow = .next ∧ ∃ maps₁ f'₁ m'₁, maps ⊆ maps₁ ∧
      assign S.target S.call [t.place target] .assign [tv.expr] f' m' = .ok (.next, f'₁) m'₁ ∧
      Sync S N depth maps₁ f₁ m₁ f'₁ m'₁ := by
  obtain ⟨heq, hne, hand, hor⟩ := BinaryOp.ne_of_isArithmetic arithmetic
  obtain ⟨rfl, place, m₂, current, v, m₃, result, resolved, held, evaluated, computed, written⟩ :=
    ok_update arithmetic run
  obtain ⟨atom, -, resultAtom⟩ := Value.binary_atoms computed heq hne
  obtain ⟨tt, tv, ht, hv, rfl⟩ := RedirectContext.ok_value_binary hvalue
  have grows₁ := (Place.resolve_onlyAllocates _ _ _ target
    (Expr.isCallFree_of_fits target fits.1)).grows resolved
  have grows₂ := (Exec.eval_onlyAllocates _ _ _ value
    (Expr.isCallFree_of_fits value fits.2)).grows evaluated
  have grows := grows₁.trans grows₂
  have below : Below maps m.maps.size := fun p hp => (sync.tables.bounded p hp).1
  have bounded : ∀ t ∈ S.twins, t.object < m.objects.size := fun t ht => (sync.mirrored t ht).object
  have ready := sync.ready grows sync.inKind
  have again : Exec.eval S.source call f target m = .ok current m₂ :=
    Place.eval_of_place sound (agrees.grow grows₁) rfl (sync.ready grows₁ sync.inKind) below bounded ht
      fits.1 names.1 resolved (.refl _) held
  have agrees := agrees.grow grows
  have outside : ¬ target.InField u := by
    intro inField
    obtain ⟨c, i, rfl, ofField⟩ := Place.item_of_inField sound agrees htarget noField fits.1 inField
      names.1 ready grows₂ resolved
    exact ofField.item_fails (sync.inKind.grow grows₁ bounded)
      (Place.access_of_peek? (g := fun v => return (v, v)) held rfl)
  -- The place, then the target as an expression, then the value.
  obtain ⟨place', m'₁, ext₁, resolved', grows'₁, fresh₁, tables₁, alike⟩ :=
    (Place.kept_mimics sound agrees rfl htarget noField fits.1 outside names.1).run resolved grows₂
      (List.Subset.refl maps) below ready
  obtain ⟨current', m'₂, _, again', grows'₂, -, -, alikeCurrent⟩ :=
    (Exec.eval_mimics sound agrees target ht fits.1 names.1 (.inl rfl)).run again grows₂
      (List.Subset.refl maps) below
      (ready.grow grows'₁ (List.Subset.refl _) (ready.tables.grow_right grows'₁))
  obtain rfl := alikeCurrent.eq_of_isAtom atom
  have sub₁ := List.subset_append_right ext₁ maps
  obtain ⟨v', m'₃, ext₂, evaluated', grows'₃, -, tables₂, alikeValue⟩ :=
    (Exec.eval_mimics sound agrees value hv fits.2 names.2 (.inl rfl)).run evaluated (.refl _)
      (List.Subset.refl (ext₁ ++ maps)) (below.append fresh₁ grows₁.mapsLe)
      (ready.grow (grows'₁.trans grows'₂) sub₁ (tables₁.grow_right grows'₂))
  obtain ⟨computed', -⟩ :=
    (Value.Alike.of_isAtom atom).binary sound.loose_apart tables₂.paired alikeValue computed
  -- The write.
  have sub := List.Subset.trans sub₁ (List.subset_append_right ext₂ (ext₁ ++ maps))
  have states := sync.toStates.mono sub grows ((grows'₁.trans grows'₂).trans grows'₃) tables₂
  obtain ⟨_, f'₁, m'₄, written', states₁, objects, -⟩ :=
    (alike.mono (List.subset_append_right ext₂ (ext₁ ++ maps))).access
      (.put (.of_isAtom resultAtom)) states written
  refine ⟨rfl, _, f'₁, m'₄, sub, assign_single resolved' ?_ written', ⟨states₁, ?_, ?_⟩⟩
  · rw [Exec.eval_binary hand hor]
    exact Exec.ok_bind.2 ⟨_, m'₂, again', Exec.ok_bind.2 ⟨v', m'₃, evaluated',
      Exec.ok_ofExcept.2 ⟨computed', rfl⟩⟩⟩
  · exact (sync.inKind.grow grows bounded).of_objects objects
  · exact (Place.access_depth place written).trans sync.depth

end

end Step

end FieldAccess
