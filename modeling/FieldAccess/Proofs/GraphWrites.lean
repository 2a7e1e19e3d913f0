import FieldAccess.Proofs.CallOrder
import FieldAccess.Proofs.FieldAssignment
import FieldAccess.Proofs.GraphReads

namespace FieldAccess

section

variable {k k' : Kind} {info : FieldInfo}

theorem Kind.Field.enum?_eq_none (h : k.Field info) : info.enum? = none := by
  rw [FieldInfo.enum?, h.classified]
  cases k <;> rfl

theorem Kind.Field.writeType?_eq (h : k.Field info) : info.writeType? = some k.type := by
  rw [FieldInfo.writeType?, h.classified]
  cases k with
  | int => exact h.declared
  | pointer => rfl

theorem Kind.Field.accepts_eq (h : k.Field info) (found : StaticType) :
    info.accepts found = found.assignableTo k.type := by
  have other : info.isEnumType = fun _ => false := by
    funext type
    rw [FieldInfo.isEnumType, h.enum?_eq_none]
    rfl
  simp [FieldInfo.accepts, h.writeType?_eq, other]

theorem Kind.type_ne_any (k : Kind) : k.type ≠ .any := by
  cases k with
  | int => decide
  | pointer entity => nofun

-- Only values of its own kind are accepted for a field.
theorem Kind.Field.kind_of_checkWrite (h : k.Field info) {type : Option StaticType}
    (typed : k'.Typed type) {r : RedirectContext} {span : Span}
    (checked : r.checkWrite info type span = .ok ()) : k = k' := by
  have accepted {found : StaticType} (is : type = some found) :
      found.assignableTo k.type = true := by
    subst is
    simp only [RedirectContext.checkWrite, h.writeType?_eq, h.accepts_eq] at checked
    split at checked
    · assumption
    · cases checked
  obtain ⟨known, is, of⟩ | ⟨rfl, is⟩ := typed
  · have same : known = k.type := by
      simpa [StaticType.assignableTo, k.type_ne_any] using accepted is
    cases k <;> cases k' <;> simp_all [Kind.type, Kind.Of, TypeExpr.int, TypeExpr.namedTarget?]
  · cases k with
    | int => rfl
    | pointer => cases accepted is

-- The receiver of a mutator is evaluated first, and then the value.
theorem Kind.Field.write_runs (h : k.Field info) {p : Program} {call : CallHandler} {f : Frame}
    {m m₁ m₂ m₃ : Machine} {rounds : Nat} {settings : Settings} {span : Span} {receiver : Expr}
    {source : TypedExpr} {o v : Value} (base : Exec.eval p call f receiver m = .ok o m₁)
    (value : Exec.eval p call f source.expr m₁ = .ok v m₂)
    (mutator : Exec.callMethod p call o info.mutator [v] m₂ = .ok [] m₃) :
    Step.exec p call rounds (info.write settings receiver source span) f m = .ok (.next, f) m₃ := by
  rw [FieldInfo.write, FieldInfo.argument, h.enum?_eq_none, Step.exec]
  refine Step.ok_bind.2 ⟨[], f, m₃, Step.ok_reading.2 ⟨?_, rfl⟩, rfl⟩
  simp only [Exec.evalAll, Exec.callResults, Exec.receiver, Exec.actions, Exec.all, Exec.ok_bind,
    Exec.ok_pure]
  exact ⟨o, m₁, base, [v], m₂, ⟨v, m₂, value, [], _, ⟨rfl, rfl⟩, rfl, rfl⟩, mutator⟩

end

-- What is stored at one target of an assignment: the target and the value after redirection, and the
-- place and the value in the run on plain objects.
structure Store where
  target : Target
  place : Place
  source : TypedExpr
  value : Value

def Store.write (w : Store) : Place × Value :=
  (w.place, w.value)

structure Store.Sound (s : Scene) (w : Store) : Prop where
  aims : s.Aims w.target w.place
  yields : s.Yields w.source.expr w.value
  fits : ∀ {k : Kind} {receiver info}, w.target = .field receiver info → k.Field info →
    k.Has s.nodes w.value ∧ w.value ≠ .nil

-- An operand is held by a variable, or it calls nothing and stays.
inductive Expr.HeldIn (span : Span) (bound : List (String × Expr)) (e : Expr) : Expr → Prop
  | kept : e.isCallFree = true → HeldIn span bound e e
  | temporary {name} : name ≠ "_" → (name, e) ∈ bound → HeldIn span bound e (.ident span name)

-- The statement that writes a value: none for the blank name, and a mutator for a field.
inductive Store.WrittenBy (settings : Settings) (span : Span) (bound : List (String × Expr))
    (w : Store) : Option Stmt → Prop
  | blank : w.target = .blank → WrittenBy settings span bound w none
  | field {receiver receiver' info source'} : w.target = .field receiver info →
      receiver.HeldIn span bound receiver' → w.source.expr.HeldIn span bound source'.expr →
      WrittenBy settings span bound w (some (info.write settings receiver' source' span))

theorem Place.setFields_cons (w : Place × Value) (writes : List (Place × Value)) (m : Machine) :
    setFields (w :: writes) m = setFields writes (setFields [w] m) := by
  obtain ⟨place, v⟩ := w
  cases place <;> rfl

namespace Scene

variable (s : Scene)

-- The variables hold what stands for the values of what they are bound to.
def Holds (bound : List (String × Expr)) (f' : Frame) (m' : Machine) : Prop :=
  ∀ pair ∈ bound, pair.1 ≠ "_" → ∀ v, s.Yields pair.2 v →
    ∃ v', f'.get? pair.1 = some v' ∧ Stands s.nodes m' v v'

-- What is captured has a value each.
structure Captures (c : Captured) : Prop where
  paired : c.names.length = c.values.length
  yields : ∀ e ∈ c.values, ∃ v, s.Yields e v

end Scene

section

variable {s : Scene} {w : Store} {f' : Frame} {m mp m' m'₁ m'₂ : Machine} {bound : List (String × Expr)}
  {span : Span} {settings : Settings} {rounds : Nat} {e e' : Expr} {v : Value}

theorem Scene.Holds.later (h : s.Holds bound f' m') (later : m'.Later m'₁) : s.Holds bound f' m'₁ := by
  intro pair mem named v yields
  obtain ⟨v', held, stands⟩ := h pair mem named v yields
  exact ⟨v', held, stands.later later⟩

theorem Expr.HeldIn.stands (h : e.HeldIn span bound e') (yields : s.Yields e v)
    (locals : s.Local f' m') (holds : s.Holds bound f' m') :
    ∃ v', Exec.eval s.program s.call f' e' m' = .ok v' m' ∧ Stands s.nodes m' v v' := by
  cases h with
  | kept free => exact yields.free free locals
  | temporary named mem =>
    obtain ⟨v', held, stands⟩ := holds _ mem named v yields
    exact ⟨v', Exec.ok_eval_ident.2 ⟨by rw [Frame.var?, held]; rfl, rfl⟩, stands⟩

end

section

variable {s : Scene} {f' : Frame} {mp m' m'₁ m'₂ : Machine} {span : Span} {settings : Settings}
  {rounds : Nat} (served : s.types.catalog.ServedBy s.program s.call)
  (apart : s.types.catalog.KeysApart)

include served apart

variable (rounds settings span) in
-- A mutator that is called on what stands for an object, with what stands for a value, writes the
-- record of the object.
theorem Scene.mutator_runs {n : Node} {info : FieldInfo} {k : Kind} {receiver : Expr}
    {source : TypedExpr} {v o' v' : Value} (mem : n ∈ s.nodes)
    (found : s.types.catalog.field? n.entity info.name = some info) (field : k.Field info)
    (has : k.Has s.nodes v) (set : v ≠ .nil) (matching : Matching s.types.catalog s.nodes mp m'₂)
    (base : Exec.eval s.program s.call f' receiver m' = .ok o' m'₁)
    (standsBase : Stands s.nodes m'₂ (.object n.object) o')
    (value : Exec.eval s.program s.call f' source.expr m'₁ = .ok v' m'₂)
    (stands : Stands s.nodes m'₂ v v') :
    ∃ m'₃, Step.exec s.program s.call rounds (info.write settings receiver source span) f' m' =
        .ok (.next, f') m'₃ ∧ m'₂.Later m'₃ ∧
      Matching s.types.catalog s.nodes (mp.setField n.object info.name v) m'₃ := by
  generalize he : Value.object n.object = o at standsBase
  cases standsBase with
  | int | nil => cases he
  | @object u w hu wraps =>
    obtain rfl := matching.apart n mem u hu (.inl (Value.object.inj he))
    obtain ⟨m'₃, call, writes, stored⟩ := served.write found field wraps
      (matching.matched n mem).distinct matching.apart has set stands
    exact ⟨m'₃, field.write_runs base value call, writes.later,
      matching.write apart mem found field has writes stored⟩

variable {bound : List (String × Expr)}

variable (rounds) in
theorem Store.WrittenBy.runs {w : Store} {written : Option Stmt}
    (h : w.WrittenBy settings span bound written) (sound : w.Sound s) (locals : s.Local f' m')
    (holds : s.Holds bound f' m') (matching : Matching s.types.catalog s.nodes mp m') :
    ∃ m'₁, Step.sequence (Step.steps s.program s.call rounds written.toList) f' m' =
        .ok (.next, f') m'₁ ∧ m'.Later m'₁ ∧
      Matching s.types.catalog s.nodes (Place.setFields [w.write] mp) m'₁ := by
  obtain ⟨aims, yields, fits⟩ := sound
  obtain ⟨target, place, source, v⟩ := w
  cases h with
  | blank target =>
    obtain rfl := target
    cases aims
    exact ⟨m', rfl, .refl m', matching⟩
  | field target heldBase heldSource =>
    obtain rfl := target
    cases aims with
    | field k mem found field yieldsBase =>
      obtain ⟨has, set⟩ := fits rfl field
      obtain ⟨o', base, standsBase⟩ := heldBase.stands yieldsBase locals holds
      obtain ⟨v', value, stands⟩ := heldSource.stands yields locals holds
      rw [Option.toList_some, Step.steps, Step.steps, Step.sequence_single]
      exact s.mutator_runs span settings rounds served apart mem found field has set matching base
        standsBase value stands

variable (rounds) in
-- The mutators store one value after the other.
theorem Store.mutators_run {stores : List Store} {parts : List TargetPlan}
    (h : List.Forall₂ (fun w part => w.WrittenBy settings span bound part.mutator) stores parts)
    (sound : ∀ w ∈ stores, w.Sound s) (locals : s.Local f' m') (holds : s.Holds bound f' m')
    (matching : Matching s.types.catalog s.nodes mp m') :
    ∃ m'₁, Step.sequence (Step.steps s.program s.call rounds (parts.filterMap (·.mutator))) f' m' =
        .ok (.next, f') m'₁ ∧ m'.Later m'₁ ∧
      Matching s.types.catalog s.nodes (Place.setFields (stores.map write) mp) m'₁ := by
  induction h generalizing mp m' with
  | nil => exact ⟨m', rfl, .refl m', matching⟩
  | @cons w part stores parts head _ ih =>
    obtain ⟨m'₁, run, later, matching⟩ :=
      head.runs rounds served apart (sound w (by simp)) locals holds matching
    obtain ⟨m'₂, rest, later', matching⟩ :=
      ih (fun w hw => sound w (by simp [hw])) (locals.later later) (holds.later later) matching
    refine ⟨m'₂, ?_, later.trans later', ?_⟩
    · have split : (part :: parts).filterMap (·.mutator) =
          part.mutator.toList ++ parts.filterMap (·.mutator) := by
        cases h : part.mutator <;> simp [h]
      rw [split, Step.steps_append, Step.sequence_append_of_ok run]
      exact rest
    · rw [List.map_cons, Place.setFields_cons]
      exact matching

end

theorem exists_mem_zip_right {α β γ : Type} {R : β → γ → Prop} {as : List α} {bs : List β}
    {cs : List γ} (h : List.Forall₂ R bs cs) {pair : α × β} (mem : pair ∈ as.zip bs) :
    ∃ c, (pair.1, c) ∈ as.zip cs ∧ R pair.2 c := by
  induction h generalizing as with
  | nil => simp at mem
  | @cons b c _ _ head _ ih =>
    cases as with
    | nil => cases mem
    | cons a as =>
      rcases List.mem_cons.1 mem with rfl | mem
      · exact ⟨c, by simp, head⟩
      · obtain ⟨c, mem, rel⟩ := ih mem
        exact ⟨c, List.mem_cons_of_mem _ mem, rel⟩

-- What is captured for all operands, or for all values, in pairs.
theorem Captured.foldl_append_pairs {α : Type} (f : α → Captured) {l : List α}
    (h : ∀ a ∈ l, (f a).names.length = (f a).values.length) {c : Captured}
    (hc : c.names.length = c.values.length) :
    (l.foldl (fun c a => c ++ f a) c).names.length = (l.foldl (fun c a => c ++ f a) c).values.length ∧
      (l.foldl (fun c a => c ++ f a) c).pairs = c.pairs ++ l.flatMap (f · |>.pairs) := by
  induction l generalizing c with
  | nil => exact ⟨hc, (List.append_nil _).symm⟩
  | cons a l ih =>
    have both : (c ++ f a).names.length = (c ++ f a).values.length := by simp [hc, h a]
    obtain ⟨paired, pairs⟩ := ih (fun b hb => h b (by simp [hb])) both
    refine ⟨paired, ?_⟩
    rw [List.foldl_cons, pairs, Captured.pairs_append hc, List.append_assoc, List.flatMap_cons]

namespace Scene

variable {s : Scene} {f' : Frame} {m' : Machine} {c c' : Captured} {span : Span} {rounds : Nat}

theorem Captures.none : s.Captures {} :=
  ⟨rfl, by simp⟩

theorem Captures.single {e : Expr} {v : Value} (name : String) (yields : s.Yields e v) :
    s.Captures ⟨[name], [e]⟩ :=
  ⟨rfl, List.forall_mem_singleton.2 ⟨v, yields⟩⟩

theorem Captures.append (h : s.Captures c) (h' : s.Captures c') : s.Captures (c ++ c') where
  paired := by simp [h.paired, h'.paired]
  yields := List.forall_mem_append.2 ⟨h.yields, h'.yields⟩

theorem Captures.foldl {α : Type} (f : α → Captured) {l : List α} (h : ∀ a ∈ l, s.Captures (f a))
    (hc : s.Captures c) : s.Captures (l.foldl (fun c a => c ++ f a) c) := by
  induction l generalizing c with
  | nil => exact hc
  | cons a l ih => exact ih (fun b hb => h b (by simp [hb])) (hc.append (h a (by simp)))

-- Evaluated one after the other, expressions give what stands for their values.
theorem all_yields {es : List Expr} (yields : ∀ e ∈ es, ∃ v, s.Yields e v) (locals : s.Local f' m')
    (matching : Matching s.types.catalog s.nodes s.machine m') :
    ∃ vs' m'₁, Exec.all (Exec.actions s.program s.call f' es) m' = .ok vs' m'₁ ∧ m'.Grows m'₁ ∧
      List.Forall₂ (fun e v' => ∀ v, s.Yields e v → Stands s.nodes m'₁ v v') es vs' := by
  induction es generalizing m' with
  | nil => exact ⟨[], m', rfl, .refl m', .nil⟩
  | cons e es ih =>
    obtain ⟨v, yieldsHead⟩ := yields e (by simp)
    obtain ⟨v', m'₁, run, grows, _⟩ := yieldsHead.run locals matching
    obtain ⟨vs', m'₂, rest, grows', stand⟩ := ih (fun e he => yields e (by simp [he]))
      (locals.later grows.later) (matching.grow grows)
    refine ⟨v' :: vs', m'₂, ?_, grows.trans grows', .cons (fun w yieldsHead => ?_) stand⟩
    · rw [Exec.actions, Exec.all, Exec.bind_of_ok run, Exec.bind_of_ok rest]
      rfl
    · obtain ⟨w', _, run', _, stands⟩ := yieldsHead.run locals matching
      obtain ⟨rfl, rfl⟩ := EStateM.Result.ok.inj (run.symm.trans run')
      exact stands.later grows'.later

variable (rounds span) in
-- The variables of a binding hold what stands for the values.
theorem Captures.runs (h : s.Captures c) (fresh : ∀ x ∈ c.temps, x ∉ s.names) (nodup : c.temps.Nodup)
    (locals : s.Local f' m') (matching : Matching s.types.catalog s.nodes s.machine m')
    (scopes : f'.scopes ≠ []) :
    ∃ f'₁ m'₁, Step.sequence (Step.steps s.program s.call rounds (c.statement? span).toList) f' m' =
        .ok (.next, f'₁) m'₁ ∧ m'.Grows m'₁ ∧ s.Local f'₁ m'₁ ∧ s.Holds c.pairs f'₁ m'₁ := by
  obtain ⟨vs', m'₁, run, grows, stand⟩ := all_yields h.yields locals matching
  have bind := @Step.captured_runs _ _ rounds _ _ _ span _ _
    ((Exec.evalFor_paired h.paired.symm).2 run)
  have extends₁ : f'.Extends s.names (f'.defineAll (c.names.zip vs')) := by
    refine .of_entries fun e he => ?_
    by_cases blank : e.1 = "_"
    · exact .inr blank
    · exact .inl (fresh e.1 (List.mem_filter.2 ⟨(List.of_mem_zip he).1, by simpa using blank⟩))
  refine ⟨_, m'₁, bind, grows, ⟨fun mem known of => ?_⟩, fun pair mem named v yields => ?_⟩
  · obtain ⟨v, v', held, held', has, stands⟩ := locals.var mem known of
    exact ⟨v, v', held, (extends₁.get? mem scopes).trans held', has, stands.later grows.later⟩
  · obtain ⟨v', mem', stands⟩ := exists_mem_zip_right stand mem
    have length : c.names.length ≤ vs'.length := Nat.le_of_eq (h.paired.trans stand.length_eq)
    refine ⟨v', Frame.get?_defineAll mem' ?_ named scopes, stands v yields⟩
    rwa [List.map_fst_zip length]

end Scene

end FieldAccess
