import FieldAccess.Eval.Frame
import FieldAccess.Eval.Operator
import FieldAccess.Eval.RecordStore
import FieldAccess.Proofs.Machines
import Mathlib.Order.Defs.PartialOrder

namespace FieldAccess

-- Where the maps and objects of one machine are in another, in the order of their addresses.
structure Renaming where
  maps : List Nat
  objects : List Nat

-- A renaming grows at its end, as new addresses do.
instance : Preorder Renaming where
  le w w' := w.maps <+: w'.maps ∧ w.objects <+: w'.objects
  le_refl _ := ⟨List.prefix_rfl, List.prefix_rfl⟩
  le_trans _ _ _ h h' := ⟨h.1.trans h'.1, h.2.trans h'.2⟩

-- No two addresses become one.
structure Renaming.Apart (w : Renaming) : Prop where
  maps : w.maps.Nodup
  objects : w.objects.Nodup

theorem Renaming.Apart.of_le {w w' : Renaming} (h : w'.Apart) (le : w ≤ w') : w.Apart :=
  ⟨h.maps.sublist le.1.sublist, h.objects.sublist le.2.sublist⟩

theorem getElem?_of_extends {α : Type} {as bs : List α} (h : as <+: bs) {n : Nat} {a : α}
    (ha : as[n]? = some a) : bs[n]? = some a := by
  obtain ⟨rest, rfl⟩ := h
  rw [List.getElem?_append_left (List.getElem?_eq_some_iff.1 ha).1, ha]

namespace Value

section

variable (w : Renaming)

mutual

-- The same value, but for the addresses of maps and objects.
inductive Renamed : Value → Value → Prop
  | nil : Renamed .nil .nil
  | bool (b : Bool) : Renamed (.bool b) (.bool b)
  | int (a : Int64) : Renamed (.int a) (.int a)
  | float (a : Float) : Renamed (.float a) (.float a)
  | str (text : String) : Renamed (.str text) (.str text)
  | slice {as bs : List Value} : RenamedItems as bs → Renamed (.slice as) (.slice bs)
  | map {a b : Nat} : w.maps[a]? = some b → Renamed (.map a) (.map b)
  | record (a : Nat) : Renamed (.record a) (.record a)
  | object {a b : Nat} : w.objects[a]? = some b → Renamed (.object a) (.object b)

inductive RenamedItems : List Value → List Value → Prop
  | nil : RenamedItems [] []
  | cons {a b : Value} {as bs : List Value} : Renamed a b → RenamedItems as bs →
      RenamedItems (a :: as) (b :: bs)

end

end

variable {w w' : Renaming} {v v' a a' b b' : Value} {as as' bs bs' : List Value}

theorem renamedItems_iff : RenamedItems w as bs ↔ List.Forall₂ (Renamed w) as bs := by
  constructor
  · intro h
    induction as generalizing bs with
    | nil => cases h; exact .nil
    | cons a as ih =>
      cases h with
      | cons head rest => exact .cons head (ih rest)
  · intro h
    induction h with
    | nil => exact .nil
    | cons head _ ih => exact .cons head ih

theorem Renamed.items (h : List.Forall₂ (Renamed w) as bs) : Renamed w (.slice as) (.slice bs) :=
  .slice (renamedItems_iff.2 h)

mutual

theorem Renamed.mono (le : w ≤ w') : ∀ {v v' : Value}, Renamed w v v' → Renamed w' v v'
  | _, _, .nil => .nil
  | _, _, .bool b => .bool b
  | _, _, .int a => .int a
  | _, _, .float a => .float a
  | _, _, .str text => .str text
  | _, _, .slice items => .slice (RenamedItems.mono le items)
  | _, _, .map found => .map (getElem?_of_extends le.1 found)
  | _, _, .record a => .record a
  | _, _, .object found => .object (getElem?_of_extends le.2 found)

theorem RenamedItems.mono (le : w ≤ w') :
    ∀ {as bs : List Value}, RenamedItems w as bs → RenamedItems w' as bs
  | _, _, .nil => .nil
  | _, _, .cons head rest => .cons (head.mono le) (rest.mono le)

end

theorem forall₂_mono (le : w ≤ w') (h : List.Forall₂ (Renamed w) as bs) :
    List.Forall₂ (Renamed w') as bs :=
  h.imp fun _ _ => Renamed.mono le

theorem Renamed.of_isAtom (h : v.isAtom = true) : Renamed w v v := by
  cases v <;> first | contradiction | constructor

theorem Renamed.eq_of_isAtom (h : Renamed w v v') (atom : v.isAtom = true) : v' = v := by
  cases h <;> first | contradiction | rfl

theorem Renamed.int?_eq (h : Renamed w v v') : v.int? = v'.int? := by
  cases h <;> rfl

theorem Renamed.bool?_eq (h : Renamed w v v') : v.bool? = v'.bool? := by
  cases h <;> rfl

theorem Renamed.str?_eq (h : Renamed w v v') : v.str? = v'.str? := by
  cases h <;> rfl

theorem Renamed.key?_eq (h : Renamed w v v') : v.key? = v'.key? := by
  cases h <;> rfl

theorem Renamed.toValue (k : MapKey) : Renamed w k.toValue k.toValue := by
  cases k <;> constructor

-- What is missing on both sides counts as nothing on both.
theorem Renamed.getD {x y : Option Value} (h : Option.Rel (Renamed w) x y) :
    Renamed w (x.getD .nil) (y.getD .nil) := by
  cases h with
  | none => exact .nil
  | some h => exact h

theorem rel_head? (h : List.Forall₂ (Renamed w) as bs) :
    Option.Rel (Renamed w) as.head? bs.head? := by
  cases h with
  | nil => exact .none
  | cons head _ => exact .some head

theorem rel_getLast? (h : List.Forall₂ (Renamed w) as bs) :
    Option.Rel (Renamed w) as.getLast? bs.getLast? := by
  rw [List.getLast?_eq_getElem?, List.getLast?_eq_getElem?, h.length_eq]
  exact forall₂_getElem? h _

theorem same_address {ss : List Nat} (apart : ss.Nodup) {i j k l : Nat} (hi : ss[i]? = some k)
    (hj : ss[j]? = some l) : i = j ↔ k = l := by
  constructor
  · rintro rfl
    exact Option.some.inj (hi.symm.trans hj)
  · rintro rfl
    exact (List.getElem?_inj (List.getElem?_eq_some_iff.1 hi).1 apart).1 (hi.trans hj.symm)

mutual

-- What is equal stays so, and what differs as well.
theorem Renamed.equal_eq (apart : w.Apart) : ∀ {a a' b b' : Value}, Renamed w a a' →
    Renamed w b b' → a.equal b = a'.equal b' := by
  intro a a' b b' ha hb
  cases ha with
  | slice items =>
    cases hb with
    | slice items' =>
      simp only [equal]
      exact RenamedItems.equal_eq apart items items'
    | nil => cases items <;> rfl
    | _ => rfl
  | nil =>
    cases hb with
    | slice items => cases items <;> rfl
    | _ => rfl
  | map found =>
    cases hb with
    | map found' => simpa [equal, sameAddress] using same_address apart.maps found found'
    | _ => rfl
  | object found =>
    cases hb with
    | object found' => simpa [equal, sameAddress] using same_address apart.objects found found'
    | _ => rfl
  | _ => cases hb <;> rfl

theorem RenamedItems.equal_eq (apart : w.Apart) : ∀ {as as' bs bs' : List Value},
    RenamedItems w as as' → RenamedItems w bs bs' → equalItems as bs = equalItems as' bs' := by
  intro as as' bs bs' ha hb
  cases ha with
  | nil => cases hb <;> rfl
  | cons head rest =>
    cases hb with
    | nil => rfl
    | cons head' rest' =>
      simp only [equalItems]
      rw [Renamed.equal_eq apart head head', RenamedItems.equal_eq apart rest rest']

end

theorem Renamed.binary (apart : w.Apart) {op : BinaryOp} (ha : Renamed w a a') (hb : Renamed w b b')
    (h : a.binary op b = .ok v) : Value.binary op a' b' = .ok v ∧ v.isAtom = true := by
  by_cases heq : op = .eq
  · subst heq
    rw [Value.binary, ← ha.equal_eq apart hb]
    exact ⟨h, ok_pure.1 h ▸ rfl⟩
  · by_cases hne : op = .ne
    · subst hne
      rw [Value.binary, ← ha.equal_eq apart hb]
      exact ⟨h, ok_pure.1 h ▸ rfl⟩
    · obtain ⟨atom, atom', result⟩ := binary_atoms h heq hne
      rw [ha.eq_of_isAtom atom, hb.eq_of_isAtom atom']
      exact ⟨h, result⟩

theorem Renamed.unary {op : UnaryOp} (ha : Renamed w a a') (h : Value.unary op a = .ok v) :
    ∃ v', Value.unary op a' = .ok v' ∧ Renamed w v v' := by
  by_cases atom : a.isAtom = true
  · rw [ha.eq_of_isAtom atom]
    refine ⟨v, h, .of_isAtom ?_⟩
    cases op <;> cases a <;> simp only [Value.unary, ok_pure, ok_throw] at h <;>
      first
        | contradiction
        | exact h ▸ atom
        | exact h ▸ rfl
        | (split at h <;> simp only [ok_pure, ok_throw] at h; exact h ▸ rfl)
  · cases op <;> cases ha <;> simp only [Value.unary, ok_pure, ok_throw] at h <;>
      first
        | exact absurd rfl atom
        | exact ⟨_, rfl, h ▸ by constructor; assumption⟩
        | exact ⟨_, rfl, h ▸ .record _⟩

-- Only values without parts are converted.
theorem convert_atoms {type : String} (h : convert type a = .ok v) :
    a.isAtom = true ∧ v.isAtom = true := by
  unfold convert at h
  split at h
  · split at h <;> first | exact ⟨rfl, ok_pure.1 h ▸ rfl⟩ | exact (ok_throw.1 h).elim
  · split at h
    · exact ⟨rfl, ok_pure.1 h ▸ rfl⟩
    · exact ⟨rfl, ok_pure.1 h ▸ rfl⟩
    · split at h
      · exact ⟨rfl, ok_pure.1 h ▸ rfl⟩
      · exact (ok_throw.1 h).elim
    · split at h
      · exact ⟨rfl, ok_pure.1 h ▸ rfl⟩
      · exact (ok_throw.1 h).elim
    · exact (ok_throw.1 h).elim

theorem Renamed.convert {type : String} (ha : Renamed w a a') (h : Value.convert type a = .ok v) :
    Value.convert type a' = .ok v ∧ v.isAtom = true := by
  obtain ⟨atom, result⟩ := convert_atoms h
  rw [ha.eq_of_isAtom atom]
  exact ⟨h, result⟩

end Value

section

variable (w : Renaming)

structure Object.Renamed (o o' : Object) : Prop where
  type : o.type = o'.type
  fields : Table.Alike (Value.Renamed w) o.fields o'.fields

structure Record.Renamed (r r' : Record) : Prop where
  id : r.id = r'.id
  collection : r.collection = r'.collection
  data : Table.Alike (Value.Renamed w) r.data r'.data
  expand : Table.Alike (Value.Renamed w) r.expand r'.expand

-- Every map and object of a machine is in the other, at an address of its own. Records keep their
-- addresses.
structure Machine.Renamed (m m' : Machine) : Prop where
  maps : w.maps.length = m.maps.size
  objects : w.objects.length = m.objects.size
  apart : w.Apart
  mapsLt : ∀ a ∈ w.maps, a < m'.maps.size
  objectsLt : ∀ a ∈ w.objects, a < m'.objects.size
  map : ∀ {a b}, w.maps[a]? = some b → Table.Alike (Value.Renamed w) (m.map a) (m'.map b)
  object : ∀ {a b}, w.objects[a]? = some b → (m.object a).Renamed w (m'.object b)
  records : m.records.size = m'.records.size
  record : ∀ a, (m.record a).Renamed w (m'.record a)
  globals : Table.Alike (Value.Renamed w) m.globals m'.globals

end

variable {w w' : Renaming}

theorem Table.Alike.rename {κ : Type} {t t' : Table κ} (h : Table.Alike (Value.Renamed w) t t')
    (le : w ≤ w') : Table.Alike (Value.Renamed w') t t' :=
  h.mono fun _ _ => Value.Renamed.mono le

theorem Object.Renamed.mono {o o' : Object} (h : o.Renamed w o') (le : w ≤ w') : o.Renamed w' o' :=
  ⟨h.type, h.fields.rename le⟩

theorem Record.Renamed.mono {r r' : Record} (h : r.Renamed w r') (le : w ≤ w') : r.Renamed w' r' :=
  ⟨h.id, h.collection, h.data.rename le, h.expand.rename le⟩

namespace Machine.Renamed

variable {m m' m'' : Machine} {v v' : Value} {a b : Nat}

theorem map_lt (h : m.Renamed w m') (found : w.maps[a]? = some b) :
    a < m.maps.size ∧ b < m'.maps.size :=
  ⟨h.maps ▸ (List.getElem?_eq_some_iff.1 found).1, h.mapsLt b (List.mem_of_getElem? found)⟩

theorem object_lt (h : m.Renamed w m') (found : w.objects[a]? = some b) :
    a < m.objects.size ∧ b < m'.objects.size :=
  ⟨h.objects ▸ (List.getElem?_eq_some_iff.1 found).1, h.objectsLt b (List.mem_of_getElem? found)⟩

-- Garbage does not matter.
theorem grow_right (h : m.Renamed w m') (grows : m'.Grows m'') : m.Renamed w m'' where
  maps := h.maps
  objects := h.objects
  apart := h.apart
  mapsLt a ha := Nat.lt_of_lt_of_le (h.mapsLt a ha) grows.mapsLe
  objectsLt a ha := Nat.lt_of_lt_of_le (h.objectsLt a ha) grows.objectsLe
  map found := by
    rw [grows.map _ (h.map_lt found).2]
    exact h.map found
  object found := by
    rw [grows.object _ (h.object_lt found).2]
    exact h.object found
  records := h.records.trans (congrArg Array.size grows.records.symm)
  record a := by
    rw [grows.record]
    exact h.record a
  globals := by
    rw [grows.globals]
    exact h.globals

theorem nodup_concat {as : List Nat} (apart : as.Nodup) {n : Nat} (lt : ∀ a ∈ as, a < n) :
    (as ++ [n]).Nodup :=
  List.nodup_append.2 ⟨apart, by simp, fun a ha b hb =>
    List.mem_singleton.1 hb ▸ Nat.ne_of_lt (lt a ha)⟩

theorem forall_lt_concat {as : List Nat} {n : Nat} (lt : ∀ a ∈ as, a < n) :
    ∀ a ∈ as ++ [n], a < n + 1 := by
  intro a ha
  rcases List.mem_append.1 ha with ha | ha
  · exact Nat.lt_succ_of_lt (lt a ha)
  · exact List.mem_singleton.1 ha ▸ Nat.lt_succ_self _

theorem getElem?_concat {as : List Nat} {n a b : Nat} (h : (as ++ [n])[a]? = some b) :
    as[a]? = some b ∨ a = as.length ∧ b = n := by
  rw [List.getElem?_append] at h
  split at h
  · exact .inl h
  · rw [List.getElem?_singleton] at h
    split at h
    · exact .inr ⟨by omega, (Option.some.inj h).symm⟩
    · cases h

-- New maps on both sides.
theorem allocMap (h : m.Renamed w m') {t t' : Table MapKey}
    (ht : Table.Alike (Value.Renamed w) t t') : ∃ w', w ≤ w' ∧
      Machine.Renamed w' { m with maps := m.maps.push t } { m' with maps := m'.maps.push t' } ∧
      Value.Renamed w' (.map m.maps.size) (.map m'.maps.size) := by
  let w' : Renaming := { w with maps := w.maps ++ [m'.maps.size] }
  have le : w ≤ w' := ⟨List.prefix_append .., List.prefix_rfl⟩
  have grows := (Grows.allocMap (m := m) (t := t) rfl).2.2
  have grows' := (Grows.allocMap (m := m') (t := t') rfl).2.2
  refine ⟨w', le, ?_, .map ?_⟩
  · exact {
      maps := by simp [w', h.maps]
      objects := h.objects
      apart := ⟨nodup_concat h.apart.maps h.mapsLt, h.apart.objects⟩
      mapsLt := by
        rw [Array.size_push]
        exact forall_lt_concat h.mapsLt
      objectsLt := h.objectsLt
      map := fun {a b} found => by
        rcases getElem?_concat found with found | ⟨rfl, rfl⟩
        · rw [grows.map _ (h.map_lt found).1, grows'.map _ (h.map_lt found).2]
          exact (h.map found).rename le
        · rw [h.maps, map_allocMap, map_allocMap]
          exact ht.rename le
      object := fun found => (h.object found).mono le
      records := h.records
      record := fun a => (h.record a).mono le
      globals := h.globals.rename le }
  · rw [← h.maps]
    exact List.getElem?_concat_length ..

theorem object_allocObject (o : Object) :
    Machine.object { m with objects := m.objects.push o } m.objects.size = o := by
  simp [Machine.object]

-- New objects on both sides.
theorem allocObject (h : m.Renamed w m') {o o' : Object} (ho : o.Renamed w o') : ∃ w', w ≤ w' ∧
      Machine.Renamed w' { m with objects := m.objects.push o }
        { m' with objects := m'.objects.push o' } ∧
      Value.Renamed w' (.object m.objects.size) (.object m'.objects.size) := by
  let w' : Renaming := { w with objects := w.objects ++ [m'.objects.size] }
  have le : w ≤ w' := ⟨List.prefix_rfl, List.prefix_append ..⟩
  have grows := Grows.allocObject (m := m) (o := o) rfl
  have grows' := Grows.allocObject (m := m') (o := o') rfl
  refine ⟨w', le, ?_, .object ?_⟩
  · exact {
      maps := h.maps
      objects := by simp [w', h.objects]
      apart := ⟨h.apart.maps, nodup_concat h.apart.objects h.objectsLt⟩
      mapsLt := h.mapsLt
      objectsLt := by
        rw [Array.size_push]
        exact forall_lt_concat h.objectsLt
      map := fun found => (h.map found).rename le
      object := fun {a b} found => by
        rcases getElem?_concat found with found | ⟨rfl, rfl⟩
        · rw [grows.object _ (h.object_lt found).1, grows'.object _ (h.object_lt found).2]
          exact (h.object found).mono le
        · rw [h.objects, object_allocObject, object_allocObject]
          exact ho.mono le
      records := h.records
      record := fun a => (h.record a).mono le
      globals := h.globals.rename le }
  · rw [← h.objects]
    exact List.getElem?_concat_length ..

theorem setMap (h : m.Renamed w m') (found : w.maps[a]? = some b) {t t' : Table MapKey}
    (ht : Table.Alike (Value.Renamed w) t t') : (m.setMap a t).Renamed w (m'.setMap b t') where
  maps := by simpa [Machine.setMap] using h.maps
  objects := h.objects
  apart := h.apart
  mapsLt := by simpa [Machine.setMap] using h.mapsLt
  objectsLt := h.objectsLt
  map {c d} found' := by
    have same := Value.same_address h.apart.maps found' found
    rw [map_setMap _ _ _ _ (h.map_lt found).1, map_setMap _ _ _ _ (h.map_lt found).2]
    by_cases e : c = a
    · rw [if_pos e, if_pos (same.1 e)]
      exact ht
    · rw [if_neg e, if_neg fun e' => e (same.2 e')]
      exact h.map found'
  object := h.object
  records := h.records
  record := h.record
  globals := h.globals

theorem setObject (h : m.Renamed w m') (found : w.objects[a]? = some b) {o o' : Object}
    (ho : o.Renamed w o') : (m.setObject a o).Renamed w (m'.setObject b o') where
  maps := h.maps
  objects := by simpa [Machine.setObject] using h.objects
  apart := h.apart
  mapsLt := h.mapsLt
  objectsLt := by simpa [Machine.setObject] using h.objectsLt
  map := h.map
  object {c d} found' := by
    have same := Value.same_address h.apart.objects found' found
    rw [object_setObject _ _ _ _ (h.object_lt found).1,
      object_setObject _ _ _ _ (h.object_lt found).2]
    by_cases e : c = a
    · rw [if_pos e, if_pos (same.1 e)]
      exact ho
    · rw [if_neg e, if_neg fun e' => e (same.2 e')]
      exact h.object found'
  records := h.records
  record := h.record
  globals := h.globals

theorem setRecord (h : m.Renamed w m') {r r' : Record} (hr : r.Renamed w r') :
    (m.setRecord a r).Renamed w (m'.setRecord a r') where
  maps := h.maps
  objects := h.objects
  apart := h.apart
  mapsLt := h.mapsLt
  objectsLt := h.objectsLt
  map := h.map
  object := h.object
  records := by simpa [Machine.setRecord] using h.records
  record c := by
    by_cases lt : a < m.records.size
    · rw [record_setRecord _ _ _ _ lt, record_setRecord _ _ _ _ (h.records ▸ lt)]
      split
      · exact hr
      · exact h.record c
    · have lt' : ¬a < m'.records.size := h.records ▸ lt
      simpa [Machine.setRecord, Array.setIfInBounds, lt, lt'] using h.record c
  globals := h.globals

theorem setGlobal (h : m.Renamed w m') (name : String) (hv : v.Renamed w v') :
    (m.setGlobal name v).Renamed w (m'.setGlobal name v') :=
  { h with globals := h.globals.insert name hv }

theorem recordOf?_eq (h : m.Renamed w m') (hv : v.Renamed w v') :
    m.recordOf? v = m'.recordOf? v' := by
  cases hv with
  | object found =>
    have held := (h.object found).fields.get? recordField
    simp only [Machine.recordOf?]
    cases x : (m.object _).fields.get? recordField <;>
      cases y : (m'.object _).fields.get? recordField <;> simp only [x, y] at held ⊢
    · cases held
    · cases held
    · cases held with
      | some held => cases held <;> rfl
  | _ => rfl

mutual

-- Messages show no addresses.
theorem render_eq (h : m.Renamed w m') :
    ∀ {v v' : Value}, v.Renamed w v' → m.render v = m'.render v'
  | _, _, .nil | _, _, .bool _ | _, _, .int _ | _, _, .float _ | _, _, .str _ => rfl
  | _, _, .slice items => by rw [render, render, renderItems_eq h items]
  | _, _, .map found => by rw [render, render, Table.size, Table.size, (h.map found).length_eq]
  | _, _, .record a => by rw [render, render, (h.record a).id]
  | _, _, .object found => by rw [render, render, (h.object found).type]

theorem renderItems_eq (h : m.Renamed w m') :
    ∀ {as bs : List Value}, Value.RenamedItems w as bs → m.renderItems as = m'.renderItems bs
  | _, _, .nil => rfl
  | _, _, .cons head rest => by
    rw [renderItems, renderItems, render_eq h head, renderItems_eq h rest]

end

end Machine.Renamed

end FieldAccess
