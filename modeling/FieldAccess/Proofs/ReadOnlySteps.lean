import FieldAccess.Proofs.AccessorRuns
import FieldAccess.Proofs.Runs

namespace FieldAccess

-- Two machines that differ at most in what records hold, and in maps that no table is.
structure Machine.Near (A : Nat → Prop) (m m' : Machine) : Prop where
  objects : m'.objects = m.objects
  globals : m'.globals = m.globals
  ids : ∀ a, (m'.record a).id = (m.record a).id
  map : ∀ a, A a → m'.map a = m.map a
  tables : ∀ {x a}, m.globals.get? x = some (.map a) → A a

theorem Machine.Near.refl (m : Machine) : Near (fun _ => True) m m :=
  ⟨rfl, rfl, fun _ => rfl, fun _ _ => rfl, fun _ => trivial⟩

namespace Exec

variable {α β : Type} {A : Nat → Prop} {m m' m₂ : Machine} {v : Value} {x : Exec α} {k : α → Exec β}
  {p : Program} {f : Frame}

-- A step that has the same result in two machines and changes neither.
def Reads (m m' : Machine) (x : Exec α) : Prop :=
  (∃ a, x m = .ok a m ∧ x m' = .ok a m') ∨ ∃ fault, x m = .error fault m ∧ x m' = .error fault m'

namespace Reads

theorem ok_bind {b : β} (hx : Reads m m' x) (h : (x >>= k) m = .ok b m₂) :
    ∃ a, x m = .ok a m ∧ k a m = .ok b m₂ := by
  rcases hx with ⟨a, run, _⟩ | ⟨fault, run, _⟩
  · exact ⟨a, run, bind_of_ok run k ▸ h⟩
  · rw [bind_of_error run] at h
    cases h

theorem bind (hx : Reads m m' x) (hk : ∀ a, x m = .ok a m → Reads m m' (k a)) :
    Reads m m' (x >>= k) := by
  rcases hx with ⟨a, run, run'⟩ | ⟨fault, run, run'⟩
  · rw [Reads, bind_of_ok run, bind_of_ok run']
    exact hk a run
  · exact .inr ⟨fault, bind_of_error run k, bind_of_error run' k⟩

theorem pure (a : α) : Reads m m' (pure a : Exec α) :=
  .inl ⟨a, rfl, rfl⟩

theorem fail (fault : ExecFault) : Reads m m' (fail fault : Exec α) :=
  .inr ⟨fault, rfl, rfl⟩

theorem orFail (fault : ExecFault) (x : Option α) : Reads m m' (orFail fault x) := by
  cases x with
  | none => exact fail fault
  | some a => exact pure a

theorem ofExcept (x : Except ExecFault α) : Reads m m' (ofExcept x) := by
  cases x with
  | error fault => exact fail fault
  | ok a => exact pure a

theorem mapM {step : α → Exec β} (h : ∀ a, Reads m m' (step a)) (as : List α) :
    Reads m m' (as.mapM step) := by
  induction as with
  | nil => exact pure _
  | cons a rest ih =>
    rw [List.mapM_cons]
    exact (h a).bind fun _ _ => ih.bind fun _ _ => pure _

theorem foldlM {step : β → α → Exec β} (h : ∀ b a, Reads m m' (step b a)) (as : List α) (b : β) :
    Reads m m' (as.foldlM step b) := by
  induction as generalizing b with
  | nil => exact pure _
  | cons a rest ih =>
    rw [List.foldlM_cons]
    exact (h b a).bind fun b' _ => ih b'

end Reads

theorem setAt_reads (items : List Value) (index v : Value) : Reads m m' (setAt items index v) := by
  refine (Reads.orFail _ _).bind fun i _ => ?_
  split
  · exact .fail _
  · exact .pure _

section

variable (near : m.Near A m')

include near

theorem binding_reads (name : String) : Reads m m' (binding? f name) := by
  refine .inl ⟨(f.get? name).or (m.globals.get? name), rfl, ?_⟩
  rw [← near.globals]
  rfl

theorem guard_reads (name : String) (fault : ExecFault) : Reads m m' (guard p f name fault) := by
  refine (binding_reads near name).bind fun found _ => ?_
  cases found with
  | none => exact .pure _
  | some v => exact .fail _

theorem giveUp_reads : Reads m m' (giveUp p f : Exec α) :=
  (guard_reads near _ _).bind fun _ _ => .fail _

theorem length_reads (within : ∀ {a}, v = .map a → A a) : Reads m m' (length v) := by
  cases v with
  | slice | str | nil => exact .pure _
  | map a =>
    refine .inl ⟨.int (Int64.ofNat (m.map a).size), rfl, ?_⟩
    rw [← near.map a (within rfl)]
    rfl
  | _ => exact .fail _

theorem lengthIn_reads (within : ∀ {a}, v = .map a → A a) : Reads m m' (lengthIn p f v) := by
  refine (binding_reads near _).bind fun found _ => ?_
  cases found with
  | none => exact length_reads near within
  | some w =>
    simp only [Option.isSome_some, if_true]
    split
    · exact .ofExcept _
    · exact .fail _

theorem item_reads {container : Value} (within : ∀ {a}, container = .map a → A a) (index : Value) :
    Reads m m' (item container index) := by
  cases container with
  | slice => exact (Reads.orFail _ _).bind fun _ _ => .orFail _ _
  | map a =>
    refine (Reads.orFail _ _).bind fun key _ => .inl ⟨((m.map a).get? key).getD .nil, rfl, ?_⟩
    rw [← near.map a (within rfl)]
    rfl
  | nil => exact .pure _
  | _ => exact .fail _

theorem itemsOf_reads (within : ∀ {a}, v = .map a → A a) : Reads m m' (Step.itemsOf v) := by
  cases v with
  | slice | int | nil => exact .pure _
  | map a =>
    refine .inl ⟨(m.map a).entries.map fun e => (e.1.toValue, e.2), rfl, ?_⟩
    rw [← near.map a (within rfl)]
    rfl
  | _ => exact .fail _

theorem lookUpIn_reads {table : String} (within : ∀ {a}, f.get? table = some (.map a) → A a)
    (key : Value) : Reads m m' (lookUpIn p f table key) := by
  refine (binding_reads near _).bind fun found bound => (Reads.orFail _ _).bind fun v known => ?_
  obtain rfl : found = some v := (ok_orFail.1 known).1
  have bound : (f.get? table).or (m.globals.get? table) = some v := (EStateM.Result.ok.inj bound).1
  cases v with
  | map a =>
    have at_ : A a := by
      rcases Option.or_eq_some_iff.1 bound with local_ | ⟨_, global⟩
      · exact within local_
      · exact near.tables global
    refine (Reads.orFail _ _).bind fun key _ => ?_
    rw [Reads, get_bind, get_bind, near.map a at_]
    cases (m.map a).get? key with
    | none => exact giveUp_reads near
    | some v => exact Reads.pure v
  | _ => exact (item_reads near (fun h => by cases h) _).bind fun _ _ => .fail _

theorem lookUpEach_reads {table : String} (within : ∀ {a}, f.get? table = some (.map a) → A a)
    (key : Value) : Reads m m' (lookUpEach p f table key) :=
  (lookUpIn_reads near within key).bind fun _ _ => (guard_reads near _ _).bind fun _ _ => .pure _

theorem lookUpAll_reads {table : String} (within : ∀ {a}, f.get? table = some (.map a) → A a)
    (pairs : List (Value × Value)) :
    Reads m m' (pairs.mapM fun pair => lookUpEach p f table pair.2) := by
  refine Reads.mapM (fun pair : Value × Value => ?_) pairs
  exact lookUpEach_reads near within pair.2

theorem recordProperty_reads (address : Nat) (name : String) :
    Reads m m' (recordProperty address name) := by
  unfold recordProperty
  split
  · refine .inl ⟨.str (m.record address).id, rfl, ?_⟩
    rw [← near.ids address]
    rfl
  · exact .fail _

theorem select_reads (base : Value) (member : String) : Reads m m' (select base member) := by
  cases base with
  | object address =>
    have object : m'.object address = m.object address := by
      rw [Machine.object, near.objects, Machine.object]
    have record : m'.recordOf? (.object address) = m.recordOf? (.object address) := by
      rw [Machine.recordOf?, object, Machine.recordOf?]
    rw [Reads, select, get_bind, get_bind, object, record]
    cases (m.object address).fields.get? member with
    | some v => exact Reads.pure v
    | none =>
      cases m.recordOf? (.object address) with
      | some record => exact recordProperty_reads near record member
      | none => exact Reads.fail _
  | record address => exact recordProperty_reads near address member
  | _ => exact .fail _

theorem splitWrapper_reads (lists : List Value × List Value) (pair : Value × Value) :
    Reads m m' (AccessorSite.splitWrapper lists pair) :=
  (select_reads near _ _).bind fun _ _ => (setAt_reads _ _ _).bind fun _ _ =>
    (select_reads near _ _).bind fun _ _ => (setAt_reads _ _ _).bind fun _ _ => .pure _

end

section

variable (m : Machine) (v : Value)

theorem guard_quiet (name : String) (fault : ExecFault) : Reads m m (guard p f name fault) :=
  guard_reads (.refl m) name fault

theorem lengthIn_quiet : Reads m m (lengthIn p f v) :=
  lengthIn_reads (.refl m) fun _ => trivial

theorem itemsOf_quiet : Reads m m (Step.itemsOf v) :=
  itemsOf_reads (.refl m) fun _ => trivial

theorem lookUpIn_quiet (table : String) : Reads m m (lookUpIn p f table v) :=
  lookUpIn_reads (.refl m) (fun _ => trivial) v

theorem lookUpAll_quiet (table : String) (pairs : List (Value × Value)) :
    Reads m m (pairs.mapM fun pair => lookUpEach p f table pair.2) :=
  lookUpAll_reads (.refl m) (fun _ => trivial) pairs

theorem select_quiet (member : String) : Reads m m (select v member) :=
  select_reads (.refl m) v member

end

end Exec

end FieldAccess
