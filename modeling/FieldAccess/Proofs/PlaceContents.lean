import FieldAccess.Proofs.FieldWrites
import FieldAccess.Proofs.RenamedSteps

namespace FieldAccess

-- What a container holds at an index.
def Value.itemIn? (container : Value) (m : Machine) (index : Value) : Option Value :=
  match container with
  | .slice items => do items[← Value.position? (← index.int?) items.length]?
  | .map address => do (m.map address).get? (← index.key?)
  | _ => none

-- What a place holds, if anything.
def Place.peek? (f : Frame) (m : Machine) : Place → Option Value
  | .blank => none
  | .named name => f.var? m name
  | .field address member => (m.object address).fields.get? member
  | .item container index => (peek? f m container).bind (·.itemIn? m index)
  | .temporary v => some v

-- Setting what a map holds already changes nothing.
theorem Machine.setMap_of_get? {m : Machine} {a : Nat} {key : MapKey} {v : Value}
    (h : (m.map a).get? key = some v) : m.setMap a ((m.map a).insert key v) = m := by
  rw [Table.insert_of_get? h]
  have same : m.maps.setIfInBounds a (m.map a) = m.maps := by
    refine Array.ext (by simp) fun i _ hi => ?_
    rw [Array.getElem_setIfInBounds hi, Machine.map]
    split <;> simp_all
  rw [Machine.setMap, same]

-- The same for a variable.
theorem Frame.assign_of_get? {f : Frame} {x : String} {v : Value} (h : f.get? x = some v) :
    f.assign x v = f := by
  obtain ⟨scopes⟩ := f
  simp only [Frame.get?, Frame.assign, Frame.mk.injEq] at h ⊢
  induction scopes with
  | nil => rfl
  | cons scope rest ih =>
    rw [List.findSome?_cons] at h
    rw [Frame.assignIn, Table.contains]
    cases held : scope.get? x with
    | none =>
      rw [held] at h
      simp [ih h]
    | some u =>
      rw [held] at h
      obtain rfl := Option.some.inj h
      simp [Table.insert_of_get? held]

namespace Exec

variable {m : Machine} {container index v : Value}

-- An index that leads to an item gives it.
theorem item_of_itemIn? (h : container.itemIn? m index = some v) :
    item container index m = .ok v m := by
  cases container with
  | slice items =>
    obtain ⟨i, hi, h⟩ := Option.bind_eq_some_iff.1 h
    exact ok_bind.2 ⟨i, m, ok_orFail.2 ⟨hi, rfl⟩, ok_orFail.2 ⟨h, rfl⟩⟩
  | map address =>
    obtain ⟨key, hk, h⟩ := Option.bind_eq_some_iff.1 h
    refine ok_bind.2 ⟨key, m, ok_orFail.2 ⟨hk, rfl⟩, ok_bind.2 ⟨m, m, rfl, ?_⟩⟩
    rw [h]
    rfl
  | _ => cases h

end Exec

namespace Place

variable {α : Type} {g : Access α} {a : α} {f f₁ : Frame} {m m₁ m₂ : Machine} {c i u v : Value}
  {place : Place}

theorem accessItem_of_itemIn? (held : c.itemIn? m i = some v) (got : g v m = .ok (a, v) m) :
    accessItem i g c m = .ok (a, c) m := by
  cases c with
  | slice items =>
    obtain ⟨n, hn, held⟩ := Option.bind_eq_some_iff.1 held
    obtain ⟨position, hp, held⟩ := Option.bind_eq_some_iff.1 held
    obtain ⟨lt, same⟩ := List.getElem?_eq_some_iff.1 held
    refine Exec.ok_bind.2 ⟨n, m, Exec.ok_orFail.2 ⟨hn, rfl⟩, ?_⟩
    rw [hp]
    refine Exec.ok_bind.2 ⟨(a, v), m, by rw [held]; exact got, ?_⟩
    change (pure (a, Value.slice (items.set position v)) : Exec _) m = _
    rw [← same, List.set_getElem_self lt]
    rfl
  | map address =>
    obtain ⟨key, hk, held⟩ := Option.bind_eq_some_iff.1 held
    refine Exec.ok_bind.2 ⟨key, m, Exec.ok_orFail.2 ⟨hk, rfl⟩, Exec.ok_bind.2 ⟨m, m, rfl, ?_⟩⟩
    refine Exec.ok_bind.2 ⟨(a, v), m, by rw [held]; exact got, Exec.ok_bind.2 ⟨(), m, ?_, rfl⟩⟩
    exact Exec.ok_modify.2 (Machine.setMap_of_get? held)
  | _ => cases held

-- Access that leaves the content of a place as it is changes nothing.
theorem access_of_peek? (held : place.peek? f m = some v) (got : g v m = .ok (a, v) m) :
    place.access g f m = .ok (a, f) m := by
  induction place generalizing α v with
  | blank => cases held
  | temporary u =>
    obtain rfl := Option.some.inj held
    exact ok_access_temporary.2 ⟨u, got, rfl⟩
  | named x =>
    rw [peek?, Frame.var?] at held
    cases hx : f.get? x with
    | some u =>
      rw [hx] at held
      obtain rfl := Option.some.inj held
      exact ok_access_named.2 (.inl ⟨u, u, hx, got, (Frame.assign_of_get? hx).symm⟩)
    | none =>
      rw [hx, Option.none_or] at held
      refine ok_access_named.2 (.inr ⟨v, v, m, hx, held, got, ?_, rfl⟩)
      rw [Machine.setGlobal, Table.insert_of_get? held]
  | field address member =>
    refine ok_access_field.2 ⟨v, m, ?_, (Machine.setField_of_get? held).symm, rfl⟩
    rw [show (m.object address).fields.get? member = some v from held, Option.getD_some,
      Machine.setField_of_get? held]
    exact got
  | item container index ih =>
    obtain ⟨c, held, inside⟩ := Option.bind_eq_some_iff.1 held
    exact ih held (accessItem_of_itemIn? inside got)

theorem itemIn?_of_accessItem (run : accessItem i g c m = .ok (a, u) m₁) :
    (∃ v u m₂, c.itemIn? m i = some v ∧ g v m = .ok (a, u) m₂) ∨
      ∃ u m₂, g .nil m = .ok (a, u) m₂ := by
  cases c with
  | slice items =>
    obtain ⟨n, _, look, run⟩ := Exec.ok_bind.1 run
    obtain ⟨hn, rfl⟩ := Exec.ok_orFail.1 look
    cases hp : Value.position? n items.length with
    | none =>
      rw [hp] at run
      exact (Exec.ok_fail.1 run).elim
    | some position =>
      rw [hp] at run
      obtain ⟨⟨b, w⟩, m₂, got, put⟩ := Exec.ok_bind.1 run
      obtain ⟨rfl, -⟩ := Prod.mk.inj (Exec.ok_pure.1 put).1
      cases held : items[position]? with
      | none =>
        rw [held] at got
        exact .inr ⟨w, m₂, got⟩
      | some v =>
        rw [held] at got
        refine .inl ⟨v, w, m₂, ?_, got⟩
        simp only [Value.itemIn?, hn, Option.bind_eq_bind, Option.bind_some, hp, held]
  | map address =>
    obtain ⟨key, _, look, run⟩ := Exec.ok_bind.1 run
    obtain ⟨hk, rfl⟩ := Exec.ok_orFail.1 look
    rw [Exec.get_bind] at run
    obtain ⟨⟨b, w⟩, m₂, got, put⟩ := Exec.ok_bind.1 run
    obtain ⟨_, _, _, put⟩ := Exec.ok_bind.1 put
    obtain ⟨rfl, -⟩ := Prod.mk.inj (Exec.ok_pure.1 put).1
    cases held : (Machine.map _ address).get? key with
    | none =>
      rw [held] at got
      exact .inr ⟨w, m₂, got⟩
    | some v =>
      rw [held] at got
      refine .inl ⟨v, w, m₂, ?_, got⟩
      simp only [Value.itemIn?, hk, Option.bind_eq_bind, Option.bind_some, held]
  | nil => exact (Exec.ok_fail.1 run).elim
  | _ => exact (Exec.ok_failType.1 run).elim

-- What is accessed is what the place holds, or nothing.
theorem peek?_of_access (run : place.access g f m = .ok (a, f₁) m₁) :
    (∃ v u m₂, place.peek? f m = some v ∧ g v m = .ok (a, u) m₂) ∨
      ∃ m u m₂, g .nil m = .ok (a, u) m₂ := by
  induction place generalizing α with
  | blank =>
    obtain ⟨u, got, -⟩ := ok_access_blank.1 run
    exact .inr ⟨m, u, m₁, got⟩
  | temporary v =>
    obtain ⟨u, got, -⟩ := ok_access_temporary.1 run
    exact .inl ⟨v, u, m₁, rfl, got⟩
  | named x =>
    rcases ok_access_named.1 run with ⟨v, u, hx, got, -⟩ | ⟨v, u, m₂, hx, global, got, -, -⟩
    · exact .inl ⟨v, u, m₁, by rw [peek?, Frame.var?, hx]; rfl, got⟩
    · exact .inl ⟨v, u, m₂, by rw [peek?, Frame.var?, hx, global]; rfl, got⟩
  | field address member =>
    obtain ⟨u, m₂, got, -, -⟩ := ok_access_field.1 run
    cases held : (m.object address).fields.get? member with
    | none =>
      rw [held] at got
      exact .inr ⟨_, u, m₂, got⟩
    | some v =>
      rw [held, Option.getD_some, Machine.setField_of_get? held] at got
      exact .inl ⟨v, u, m₂, held, got⟩
  | item container index ih =>
    rcases ih run with ⟨c, w, m₂, held, got⟩ | ⟨m', w, m₂, got⟩
    · rcases itemIn?_of_accessItem got with ⟨v, u, m₃, inside, got⟩ | ⟨u, m₃, got⟩
      · exact .inl ⟨v, u, m₃, by rw [peek?, held]; exact inside, got⟩
      · exact .inr ⟨m, u, m₃, got⟩
    · exact (Exec.ok_fail.1 got).elim

-- Reading a value changes nothing, and the place holds it.
theorem ok_read (run : place.read f m = .ok (v, f₁) m₁) (real : v ≠ .nil) :
    place.peek? f m = some v ∧ f₁ = f ∧ m₁ = m := by
  rcases peek?_of_access run with ⟨u, w, m₂, held, got⟩ | ⟨m', w, m₂, got⟩
  · obtain ⟨e, -⟩ := Exec.ok_pure.1 got
    obtain ⟨rfl, -⟩ := Prod.mk.inj e
    have same : place.read f m = .ok (u, f) m := access_of_peek? held rfl
    rw [run] at same
    injection same with e e'
    exact ⟨held, (Prod.mk.inj e).2, e'⟩
  · obtain ⟨e, -⟩ := Exec.ok_pure.1 got
    exact absurd (Prod.mk.inj e).1.symm real

end Place

section

variable {w : Renaming} {m₁ m₂ m' : Machine}

-- What was there before holds what it held.
theorem Machine.Grows.itemIn? (grows : m₁.Grows m₂) (same : m₁.Renamed w m') {c c' : Value}
    (h : c.Renamed w c') (index : Value) : c.itemIn? m₂ index = c.itemIn? m₁ index := by
  cases h with
  | map found => simp only [Value.itemIn?, grows.map _ (same.map_lt found).1]
  | _ => rfl

theorem Machine.Grows.object_eq (grows : m₁.Grows m₂) (same : m₁.Renamed w m') {a b : Nat}
    (found : w.objects[a]? = some b) : m₂.object a = m₁.object a :=
  grows.object a (same.object_lt found).1

end

namespace Place

variable {p : Program} {call call' : CallHandler} {w : Renaming} {f f' : Frame}
  {m m' : Machine}

-- To evaluate a target takes the steps that lead to its place, and gives what the place holds, also
-- when it is looked up later.
theorem eval_of_resolve (calls : call.Copies call') (hf : f.Renamed w f') (same : m.Renamed w m') :
    ∀ {e : Expr} {place : Place} {m₁ m₂ : Machine} {v : Value}, e.isCallFree = true →
    resolve p call f e m = .ok place m₁ → m₁.Grows m₂ → place.peek? f m₂ = some v →
    Exec.eval p call f e m = .ok v m₁
  | .ident _ x, _, _, _, _, _, run, grows, held => by
    rw [resolve] at run
    obtain ⟨rfl, rfl⟩ := Exec.ok_pure.1 run
    split at held
    · cases held
    · exact Exec.ok_eval_ident.2 ⟨(grows.var? f x).symm.trans held, rfl⟩
  | .paren _ inner, _, _, _, _, free, run, grows, held => by
    rw [resolve] at run
    rw [Exec.eval]
    exact eval_of_resolve calls hf same free run grows held
  | .select _ base member, _, _, _, _, _, run, grows, held => by
    rw [resolve] at run
    obtain ⟨u, m₃, evaluated, run⟩ := Exec.ok_bind.1 run
    obtain ⟨w₂, u', m'₃, -, -, same₃, hu⟩ :=
      (Exec.eval_copies (p := p) calls hf base).run (le_refl _) same evaluated
    cases hu with
    | object found =>
      obtain ⟨rfl, rfl⟩ := Exec.ok_pure.1 run
      rw [peek?, grows.object_eq same₃ found] at held
      rw [Exec.eval]
      refine Exec.ok_bind.2 ⟨_, _, evaluated, ?_⟩
      simp only [Exec.select, Exec.get_bind, held]
      rfl
    | _ => exact (Exec.ok_fail.1 run).elim
  | .index _ base i, _, _, _, _, free, run, grows, held => by
    obtain ⟨freeBase, freeIndex⟩ := Bool.and_eq_true_iff.1 free
    rw [resolve_index] at run
    obtain ⟨container, m₃, reached, run⟩ := Exec.ok_bind.1 run
    obtain ⟨index, m₄, evaluated, run⟩ := Exec.ok_bind.1 run
    obtain ⟨rfl, rfl⟩ := Exec.ok_pure.1 run
    obtain ⟨c, held, inside⟩ := Option.bind_eq_some_iff.1 held
    have grows₃ := (Exec.eval_onlyAllocates p call f i freeIndex).grows evaluated
    have base : Exec.eval p call f base m = .ok c m₃ := by
      rw [holder] at reached
      split at reached
      · exact eval_of_resolve calls hf same freeBase reached (grows₃.trans grows) held
      · obtain ⟨u, got, rfl⟩ := Exec.ok_map.1 reached
        obtain rfl := Option.some.inj held
        exact got
    obtain ⟨w₂, c', m'₃, le, -, same₃, hc⟩ :=
      (Exec.eval_copies (p := p) calls hf _).run (le_refl _) same base
    obtain ⟨w₃, i', m'₄, le₃, -, same₄, -⟩ :=
      (Exec.eval_copies (p := p) calls (hf.mono le) i).run (le_refl _) same₃ evaluated
    rw [grows.itemIn? same₄ (hc.mono le₃)] at inside
    rw [Exec.eval]
    exact Exec.ok_bind.2 ⟨c, m₃, base, Exec.ok_bind.2 ⟨index, _, evaluated,
      Exec.item_of_itemIn? inside⟩⟩
  | .literal _ _, _, _, _, _, _, run, _, _ | .binary _ _ _ _, _, _, _, _, _, run, _, _
  | .unary _ _ _, _, _, _, _, _, run, _, _ | .composite _ _ _, _, _, _, _, _, run, _, _
  | .typeOperand _ _, _, _, _, _, _, run, _, _ => by
    rw [resolve] at run
    · exact (Exec.ok_fail.1 run).elim
    all_goals simp

end Place

end FieldAccess
