import FieldAccess.Eval.Stmt
import FieldAccess.Proofs.PlainAssignment
import FieldAccess.Proofs.ReadSimulation
import FieldAccess.Proofs.States
import FieldAccess.Redirect.Plan

namespace FieldAccess

namespace Frame

-- Declares variables in the innermost scope.
def defineAll : List (String × Value) → Frame → Frame
  | [], f => f
  | (x, v) :: rest, f => defineAll rest (f.define x v)

theorem defineAll_append (f : Frame) (entries entries' : List (String × Value)) :
    f.defineAll (entries ++ entries') = (f.defineAll entries).defineAll entries' := by
  induction entries generalizing f with
  | nil => rfl
  | cons e entries ih => exact ih (f.define e.1 e.2)

theorem get?_define {f : Frame} {x y : String} {v : Value} (hx : x ≠ "_") (hf : f.scopes ≠ []) :
    (f.define x v).get? y = if y = x then some v else f.get? y := by
  obtain ⟨ss⟩ := f
  cases ss with
  | nil => exact absurd rfl hf
  | cons s ss =>
    simp only [define, if_neg hx, get?, List.findSome?_cons, Table.get?_insert]
    by_cases e : y = x <;> simp [e]

theorem get?_assign_of_ne {f : Frame} {x y : String} (v : Value) (ne : y ≠ x) :
    (f.assign x v).get? y = f.get? y := by
  obtain ⟨ss⟩ := f
  simp only [get?, assign]
  induction ss with
  | nil => rfl
  | cons s ss ih =>
    rw [assignIn]
    split
    · simp only [List.findSome?_cons, Table.get?_insert, if_neg ne]
    · simp only [List.findSome?_cons, ih]

theorem define_scopes_ne_nil {f : Frame} (x : String) (v : Value) (hf : f.scopes ≠ []) :
    (f.define x v).scopes ≠ [] := by
  obtain ⟨ss⟩ := f
  cases ss with
  | nil => exact absurd rfl hf
  | cons s ss =>
    simp only [define]
    split <;> simp

theorem get?_defineAll_of_not_mem {f : Frame} {entries : List (String × Value)} {y : String}
    (hy : y ∉ entries.map (·.1)) (hf : f.scopes ≠ []) : (f.defineAll entries).get? y = f.get? y := by
  induction entries generalizing f with
  | nil => rfl
  | cons e entries ih =>
    obtain ⟨x, v⟩ := e
    simp only [List.map_cons, List.mem_cons, not_or] at hy
    rw [defineAll, ih hy.2 (define_scopes_ne_nil x v hf)]
    by_cases blank : x = "_"
    · rw [blank, define_blank]
    · rw [get?_define blank hf, if_neg hy.1]

-- Variables with different names keep the values that they start with.
theorem get?_defineAll {f : Frame} {entries : List (String × Value)} {x : String} {v : Value}
    (mem : (x, v) ∈ entries) (nodup : ((entries.map (·.1)).filter (· ≠ "_")).Nodup)
    (hx : x ≠ "_") (hf : f.scopes ≠ []) : (f.defineAll entries).get? x = some v := by
  induction entries generalizing f with
  | nil => cases mem
  | cons e entries ih =>
    obtain ⟨y, w⟩ := e
    have hf' := define_scopes_ne_nil y w hf
    rw [defineAll]
    by_cases blank : y = "_"
    · subst blank
      have mem : (x, v) ∈ entries := by simpa [hx] using mem
      exact ih mem (by simpa using nodup) hf'
    · simp only [List.map_cons, List.filter_cons, blank, not_false_eq_true, decide_true,
        if_true, List.nodup_cons, ne_eq] at nodup
      rcases List.mem_cons.1 mem with e | mem
      · obtain ⟨rfl, rfl⟩ := Prod.mk.inj e
        have other : x ∉ entries.map (·.1) := fun h => nodup.1 (List.mem_filter.2 ⟨h, by simpa using hx⟩)
        rw [get?_defineAll_of_not_mem other hf', get?_define hx hf, if_pos rfl]
      · exact ih mem nodup.2 hf'

-- A frame with further temporaries.
structure Extends (N : List String) (f f₁ : Frame) : Prop where
  entries : ∃ entries : List (String × Value), (∀ e ∈ entries, e.1 ∉ N ∨ e.1 = "_") ∧
    f₁ = f.defineAll entries

variable {N : List String} {f f₁ f₂ : Frame}

theorem Extends.of_entries {entries : List (String × Value)}
    (h : ∀ e ∈ entries, e.1 ∉ N ∨ e.1 = "_") : Extends N f (f.defineAll entries) :=
  ⟨entries, h, rfl⟩

-- What a definition of temporaries keeps is kept by all of them.
theorem Extends.keeps {P : Frame → Prop} (h : Extends N f f₁)
    (step : ∀ f x v, x ∉ N → P f → P (f.define x v)) (hf : P f) : P f₁ := by
  obtain ⟨entries, temps, rfl⟩ := h.entries
  induction entries generalizing f with
  | nil => exact hf
  | cons e entries ih =>
    obtain ⟨x, v⟩ := e
    rw [defineAll]
    have rest : ∀ e ∈ entries, e.1 ∉ N ∨ e.1 = "_" := fun e he => temps e (by simp [he])
    refine ih ?_ rest ⟨entries, rest, rfl⟩
    rcases temps (x, v) (by simp) with fresh | blank
    · exact step f x v fresh hf
    · change x = "_" at blank
      rw [blank, define_blank]
      exact hf

theorem Extends.get? {x : String} (h : Extends N f f₁) (hx : x ∈ N) (hf : f.scopes ≠ []) :
    f₁.get? x = f.get? x := by
  refine (h.keeps (P := fun f₁ => f₁.scopes ≠ [] ∧ f₁.get? x = f.get? x)
    (fun f₁ y v fresh e => ⟨define_scopes_ne_nil y v e.1, ?_⟩) ⟨hf, rfl⟩).2
  by_cases blank : y = "_"
  · rw [blank, define_blank]
    exact e.2
  · rw [get?_define blank e.1, if_neg (fun same : x = y => fresh (same ▸ hx))]
    exact e.2

theorem Extends.scopesAlike {S : Sides} {maps : List (Nat × Nat)} {g : Frame}
    (h : Extends N f f₁) (alike : ScopesAlike S N maps g.scopes f.scopes) :
    ScopesAlike S N maps g.scopes f₁.scopes :=
  h.keeps (P := fun f => ScopesAlike S N maps g.scopes f.scopes) (fun _ _ _ fresh h =>
    h.define_right fresh) alike

end Frame

section

variable {p : Program} {call : CallHandler} {rounds : Nat} {f : Frame} {m m₁ : Machine}
  {span : Span} {vs : List Value}

theorem Exec.evalFor_paired {count : Nat} {es : List Expr} (paired : es.length = count) :
    Exec.evalFor p call f count es m = .ok vs m₁ ↔
      Exec.all (Exec.actions p call f es) m = .ok vs m₁ := by
  rcases es with _ | ⟨e, _ | ⟨e', es⟩⟩
  · rfl
  · have single : ¬ 1 < count := by simp at paired; omega
    simp only [Exec.evalFor, if_neg single, Exec.actions, Exec.all, Exec.ok_bind, Exec.ok_pure]
    grind
  · rfl

theorem Step.defineTargets_names (names : List String) (vs : List Value) :
    Step.defineTargets (names.map (.ident span)) vs f m =
      .ok ((), f.defineAll (names.zip vs)) m := by
  induction names generalizing vs f with
  | nil => cases vs <;> rfl
  | cons x names ih =>
    cases vs with
    | nil => rfl
    | cons v vs => exact ih (f := f.define x v) vs

theorem Place.resolveEach_blanks {names : List String} (h : ∀ x ∈ names, x = "_") :
    Place.resolveEach p call f (names.map (.ident span)) m =
      .ok (names.map fun _ => .blank) m := by
  induction names with
  | nil => rfl
  | cons x names ih =>
    obtain rfl := h x (by simp)
    rw [List.map_cons, Place.resolveEach]
    exact Exec.ok_bind.2 ⟨.blank, m, rfl, Exec.ok_bind.2
      ⟨_, m, ih fun y hy => h y (by simp [hy]), rfl⟩⟩

theorem Step.writeAll_blanks {α : Type} (names : List α) (vs : List Value) :
    Step.writeAll (names.map fun _ => .blank) vs f m = .ok ((), f) m := by
  induction names generalizing vs with
  | nil => cases vs <;> rfl
  | cons x names ih =>
    cases vs with
    | nil => rfl
    | cons v vs => exact ih vs

theorem Frame.defineAll_blanks {names : List String} (h : ∀ x ∈ names, x = "_")
    (vs : List Value) : f.defineAll (names.zip vs) = f := by
  induction names generalizing vs with
  | nil => rfl
  | cons x names ih =>
    cases vs with
    | nil => rfl
    | cons v vs =>
      obtain rfl := h x (by simp)
      rw [List.zip_cons_cons, defineAll, define_blank]
      exact ih (fun y hy => h y (by simp [hy])) vs

-- A statement that binds evaluates the values and declares the temporaries.
theorem Step.captured_runs {c : Captured}
    (run : Exec.evalFor p call f c.names.length c.values m = .ok vs m₁) :
    Step.sequence (Step.steps p call rounds (c.statement? span).toList) f m =
      .ok (.next, f.defineAll (c.names.zip vs)) m₁ := by
  unfold Captured.statement?
  dsimp only
  split
  case isTrue blank =>
    have blank : ∀ x ∈ c.names, x = "_" := by simpa using blank
    rw [Frame.defineAll_blanks blank]
    split
    case isTrue none =>
      rw [List.isEmpty_iff.1 none] at run
      obtain ⟨_, rfl⟩ := Exec.ok_pure.1 run
      rfl
    case isFalse =>
      simp only [Option.toList, Step.steps, Step.sequence_single, Step.exec]
      refine Step.ok_assign.2 ⟨_, m, vs, m₁, Place.resolveEach_blanks blank, ?_,
        Step.writeAll_blanks c.names vs, rfl⟩
      rwa [List.length_map]
  case isFalse =>
    simp only [Option.toList, Step.steps, Step.sequence_single, Step.exec]
    rw [Step.assign]
    refine Step.ok_bind.2 ⟨vs, f, m₁, Step.ok_reading.2 ⟨?_, rfl⟩, ?_⟩
    · rwa [List.length_map]
    · exact Step.ok_bind.2 ⟨(), _, m₁, Step.defineTargets_names c.names vs, rfl⟩

end

-- A value, and the range of addresses in which its evaluation allocates maps.
structure Job where
  value : Value
  start : Nat
  stop : Nat

namespace Job

def Apart (j k : Job) : Prop :=
  j.stop ≤ k.start ∨ k.stop ≤ j.start

-- None of the maps comes from the evaluation.
def Avoids (j : Job) (maps : List (Nat × Nat)) : Prop :=
  ∀ q ∈ maps, q.1 < j.start ∨ j.stop ≤ q.1

theorem Apart.symm {j k : Job} (h : j.Apart k) : k.Apart j :=
  Or.symm h

theorem Avoids.append {j k : Job} {ext maps : List (Nat × Nat)} (h : j.Avoids maps)
    (within : ∀ p ∈ ext, k.start ≤ p.1 ∧ p.1 < k.stop) (apart : k.Apart j) :
    j.Avoids (ext ++ maps) := by
  intro q hq
  rcases List.mem_append.1 hq with hq | hq
  · have := within q hq
    rcases apart with le | le <;> omega
  · exact h q hq

-- What is just read allocates nothing.
def ofRead (v : Value) : Job :=
  ⟨v, 0, 0⟩

theorem ofRead_avoids (v : Value) (maps : List (Nat × Nat)) : (ofRead v).Avoids maps :=
  fun _ _ => .inr (Nat.zero_le _)

theorem ofRead_apart (v : Value) (j : Job) : (ofRead v).Apart j :=
  .inl (Nat.zero_le _)

end Job

-- Maps may be new. Whatever was there is as it was.
structure Machine.MapsGrow (m m' : Machine) : Prop where
  le : m.maps.size ≤ m'.maps.size
  same : ∀ a < m.maps.size, m'.map a = m.map a

section

variable {m m₁ m₂ m' m'₁ : Machine} {twins : List Twin} {maps : List (Nat × Nat)}

theorem Machine.Grows.mapsGrow (h : m.Grows m₁) : m.MapsGrow m₁ :=
  ⟨h.mapsLe, h.map⟩

theorem Machine.MapsGrow.of_eq (h : m₁.maps = m.maps) : m.MapsGrow m₁ :=
  ⟨Nat.le_of_eq (congrArg Array.size h.symm), fun a _ => by rw [Machine.map, Machine.map, h]⟩

theorem Machine.MapsGrow.trans (h : m.MapsGrow m₁) (h' : m₁.MapsGrow m₂) : m.MapsGrow m₂ where
  le := Nat.le_trans h.le h'.le
  same a ha := (h'.same a (Nat.lt_of_lt_of_le ha h.le)).trans (h.same a ha)

theorem MapsAlike.mapsGrow_right (h : MapsAlike twins maps m m') (grows : m'.MapsGrow m'₁) :
    MapsAlike twins maps m m'₁ where
  paired := h.paired
  bounded p hp := ⟨(h.bounded p hp).1, Nat.lt_of_lt_of_le (h.bounded p hp).2 grows.le⟩
  alike p hp := by
    rw [grows.same _ (h.bounded p hp).2]
    exact h.alike p hp

end

-- An evaluation on wrappers that gives the value of a job, now or when the machine has grown. The
-- run on plain objects has made all its evaluations by then, and its machine is `m`.
structure Due (S : Sides) (m : Machine) (maps : List (Nat × Nat)) (m' : Machine) (x' : Exec Value)
    (j : Job) : Prop where
  run : ∀ {maps₁ m'₁}, maps ⊆ maps₁ → m'.Grows m'₁ → MapsAlike S.loose maps₁ m m'₁ →
    j.Avoids maps₁ →
    ∃ v' m'₂ ext, x' m'₁ = .ok v' m'₂ ∧ m'₁.Grows m'₂ ∧
      (∀ p ∈ ext, j.start ≤ p.1 ∧ p.1 < j.stop) ∧ MapsAlike S.loose (ext ++ maps₁) m m'₂ ∧
      Value.Alike S.loose (ext ++ maps₁) j.value v'

section

variable {S : Sides} {m m' m'₁ : Machine} {maps maps₁ : List (Nat × Nat)} {x x' : Exec Value}
  {j : Job}

theorem Due.grow (h : Due S m maps m' x' j) (sub : maps ⊆ maps₁) (grows : m'.Grows m'₁) :
    Due S m maps₁ m'₁ x' j where
  run sub' grows' := h.run (List.Subset.trans sub sub') (grows.trans grows')

-- What is mimicked can be put off.
theorem Due.of_mimics {w : View} {v : Value} {lo hi : Machine}
    (h : Exec.Mimics w maps x x' w.Alike) (run : x lo = .ok v hi) (grows : hi.Grows w.machine)
    (below : Below maps lo.maps.size) (ready : w.Ready maps m') :
    Due w.sides w.machine maps m' x' ⟨v, lo.maps.size, hi.maps.size⟩ where
  run {maps₁ m'₁} sub grows₁ tables avoids := by
    have ready₁ : w.Ready maps m'₁ :=
      ready.grow grows₁ (List.Subset.refl _) (ready.tables.grow_right grows₁)
    obtain ⟨v', m'₂, ext, run', grows₂, fresh, tables₂, alike⟩ :=
      h.run run grows (List.Subset.refl _) below ready₁
    have sub₁ : ext ++ maps ⊆ ext ++ maps₁ := List.append_subset.2
      ⟨List.subset_append_left .., fun p hp => List.mem_append_right _ (sub hp)⟩
    refine ⟨v', m'₂, ext, run', grows₂, fresh.source, ?_, alike.mono (List.Subset.refl _) sub₁⟩
    refine tables₂.union (tables.grow_right grows₂) (fun p hp q hq => ⟨?_, ?_⟩) sub
    · have := fresh.source p hp
      have : q.1 < lo.maps.size ∨ hi.maps.size ≤ q.1 := avoids q hq
      omega
    · have := fresh.target p hp
      have := (tables.bounded q hq).2
      omega

-- Jobs that keep out of each other's way can be done in any order.
theorem all_due {xs' : List (Exec Value)} {jobs : List Job}
    (h : List.Forall₂ (fun x' j => Due S m maps m' x' j) xs' jobs) (apart : jobs.Pairwise Job.Apart)
    (avoids : ∀ j ∈ jobs, j.Avoids maps) (tables : MapsAlike S.loose maps m m') :
    ∃ vs' m'₁ ext, Exec.all xs' m' = .ok vs' m'₁ ∧ m'.Grows m'₁ ∧
      MapsAlike S.loose (ext ++ maps) m m'₁ ∧
      List.Forall₂ (fun j v' => Value.Alike S.loose (ext ++ maps) j.value v') jobs vs' ∧
      ∀ k : Job, (∀ j ∈ jobs, j.Apart k) → k.Avoids maps → k.Avoids (ext ++ maps) := by
  induction jobs generalizing maps m' xs' with
  | nil =>
    cases h
    exact ⟨[], m', [], rfl, .refl _, tables, .nil, fun _ _ h => h⟩
  | cons j jobs ih =>
    obtain ⟨x', xs', head, tail, rfl⟩ := List.forall₂_cons_right_iff.1 h
    obtain ⟨v', m'₁, ext, run, grows, within, tables₁, alike⟩ :=
      head.run (List.Subset.refl _) (.refl _) tables (avoids j (by simp))
    rw [List.pairwise_cons] at apart
    have sub := List.subset_append_right ext maps
    obtain ⟨vs', m'₂, ext', run', grows', tables₂, alike', avoids'⟩ :=
      @ih m'₁ (ext ++ maps) _ (tail.imp fun _ _ h => h.grow sub grows) apart.2
        (fun k hk => (avoids k (by simp [hk])).append within (apart.1 k hk)) tables₁
    refine ⟨v' :: vs', m'₂, ext' ++ ext, ?_, grows.trans grows', ?_, ?_, fun k hk h => ?_⟩
    · rw [Exec.all]
      exact Exec.ok_bind.2 ⟨v', m'₁, run, Exec.ok_bind.2 ⟨vs', m'₂, run', rfl⟩⟩
    · rwa [List.append_assoc]
    · rw [List.append_assoc]
      exact .cons (alike.mono (List.Subset.refl _) (List.subset_append_right ..)) alike'
    · rw [List.append_assoc]
      exact avoids' k (fun j hj => hk j (by simp [hj]))
        (h.append within (hk j (by simp)))

end

-- The variables of a later state, other than the given ones, and its maps are as they were.
structure Spares (xs : List String) (f' : Frame) (m' : Machine) (f'₁ : Frame) (m'₁ : Machine) :
    Prop where
  var : ∀ x ∉ xs, f'₁.var? m'₁ x = f'.var? m' x
  frame : ∀ x ∉ xs, f'₁.get? x = f'.get? x
  maps : m'.MapsGrow m'₁

-- Reads of no field, put off as long as their variables are as they were.
structure Deferred (S : Sides) (m : Machine) (f : Frame) (maps : List (Nat × Nat))
    (names : List String) (e' : Expr) (j : Job) : Prop where
  due : ∀ f' m', (View.mk S false names f f' m).Ready maps m' →
    Due S m maps m' (Exec.eval S.target S.call f' e') j

section

variable (S : Sides) (N : List String) (m : Machine) (f : Frame) (spare : List String)

-- An expression that still gives the value of a job: a temporary that holds it, or an evaluation
-- that is put off and reads none of the spare variables.
inductive Late (maps : List (Nat × Nat)) (f' : Frame) (m' : Machine) : Expr → Job → Prop
  | held {span : Span} {x : String} {v v' : Value} : x ∉ N → f'.get? x = some v' →
      Value.Alike S.loose maps v v' → Late maps f' m' (.ident span x) (.ofRead v)
  | deferred {maps₀ : List (Nat × Nat)} {names : List String} {e' : Expr} {j : Job} :
      Deferred S m f maps₀ names e' j → maps₀ ⊆ maps → (∀ x ∈ names, x ∉ spare) →
      (View.mk S false names f f' m).Ready maps₀ m' → Late maps f' m' e' j

end

section

variable {S : Sides} {N : List String} {m m' m'₁ m'₂ : Machine} {f f' f'₁ f'₂ : Frame}
  {spare xs : List String} {maps maps₁ : List (Nat × Nat)} {e' : Expr} {j : Job}

theorem Spares.refl (xs : List String) (f' : Frame) (m' : Machine) : Spares xs f' m' f' m' :=
  ⟨fun _ _ => rfl, fun _ _ => rfl, .of_eq rfl⟩

theorem Spares.trans (h : Spares xs f' m' f'₁ m'₁) (h' : Spares xs f'₁ m'₁ f'₂ m'₂) :
    Spares xs f' m' f'₂ m'₂ where
  var x hx := (h'.var x hx).trans (h.var x hx)
  frame x hx := (h'.frame x hx).trans (h.frame x hx)
  maps := h.maps.trans h'.maps

theorem Spares.of_grows (grows : m'.Grows m'₁) : Spares xs f' m' f' m'₁ where
  var x _ := grows.var? f' x
  frame _ _ := rfl
  maps := grows.mapsGrow

theorem Spares.mono {ys : List String} (h : Spares xs f' m' f'₁ m'₁) (sub : xs ⊆ ys) :
    Spares ys f' m' f'₁ m'₁ where
  var x hx := h.var x fun hy => hx (sub hy)
  frame x hx := h.frame x fun hy => hx (sub hy)
  maps := h.maps

theorem Late.due (h : Late S N m f spare maps f' m' e' j) :
    Due S m maps m' (Exec.eval S.target S.call f' e') j := by
  cases h with
  | @held span x v v' _ get alike =>
    refine ⟨fun {maps₁ m'₁} sub _ tables _ => ⟨v', m'₁, [], ?_, .refl _, by simp, tables, ?_⟩⟩
    · refine Exec.ok_eval_ident.2 ⟨?_, rfl⟩
      simp [Frame.var?, get]
    · exact alike.mono (List.Subset.refl _) sub
  | deferred deferred sub _ ready => exact (deferred.due f' m' ready).grow sub (.refl _)

theorem Late.spares (h : Late S N m f spare maps f' m' e' j) (later : Spares spare f' m' f'₁ m'₁)
    (sub : maps ⊆ maps₁) (counted : spare ⊆ N) : Late S N m f spare maps₁ f'₁ m'₁ e' j := by
  cases h with
  | @held span x v v' fresh get alike =>
    refine .held fresh ((later.frame x fun hx => fresh (counted hx)).trans get) ?_
    exact alike.mono (List.Subset.refl _) sub
  | deferred deferred sub₀ apart ready =>
    refine .deferred deferred (List.Subset.trans sub₀ sub) apart
      ⟨?_, fun x hx v hv => ?_, nofun, nofun⟩
    · exact ready.tables.mapsGrow_right later.maps
    · obtain ⟨v', hv', alike⟩ := ready.vars x hx v hv
      exact ⟨v', (later.var x (apart x hx)).trans hv', alike⟩

end

-- The job that an evaluation did between two machines of the run on plain objects.
structure Job.DoneBy (j : Job) (p : Program) (call : CallHandler) (f : Frame) (m₀ m₁ : Machine)
    (e : Expr) : Prop where
  run : ∃ lo hi, m₀.Grows lo ∧ Exec.eval p call f e lo = .ok j.value hi ∧ hi.Grows m₁ ∧
    j.start = lo.maps.size ∧ j.stop = hi.maps.size

section

variable {p : Program} {call : CallHandler} {f f' : Frame} {m₀ m₁ m' : Machine}

theorem Job.DoneBy.mono {j : Job} {e : Expr} {m m₂ : Machine} (h : j.DoneBy p call f m₀ m₁ e)
    (before : m.Grows m₀) (after : m₁.Grows m₂) : j.DoneBy p call f m m₂ e where
  run :=
    have ⟨lo, hi, le, run, ge, start, stop⟩ := h.run
    ⟨lo, hi, before.trans le, run, ge.trans after, start, stop⟩

theorem Job.DoneBy.avoids {j : Job} {e : Expr} {maps : List (Nat × Nat)}
    (h : j.DoneBy p call f m₀ m₁ e) (below : Below maps m₀.maps.size) : j.Avoids maps := by
  obtain ⟨lo, hi, le, _, _, start, _⟩ := h.run
  intro q hq
  have := below q hq
  have := le.mapsLe
  omega

-- Evaluating several expressions does their jobs one after the other.
theorem jobs_of_all {es : List Expr} {vs : List Value} (free : ∀ e ∈ es, e.isCallFree = true)
    (h : Exec.all (Exec.actions p call f es) m₀ = .ok vs m₁) :
    ∃ jobs : List Job, List.Forall₂ (fun e j => Job.DoneBy j p call f m₀ m₁ e) es jobs ∧
      jobs.map (·.value) = vs ∧ jobs.Pairwise (fun j k => j.stop ≤ k.start) ∧ m₀.Grows m₁ ∧
      ∀ j ∈ jobs, m₀.maps.size ≤ j.start := by
  induction es generalizing m₀ vs with
  | nil =>
    obtain ⟨rfl, rfl⟩ := Exec.ok_pure.1 h
    exact ⟨[], .nil, rfl, .nil, .refl _, by simp⟩
  | cons e es ih =>
    rw [Exec.actions, Exec.all] at h
    obtain ⟨v, m, hv, h⟩ := Exec.ok_bind.1 h
    obtain ⟨vs, _, hvs, h⟩ := Exec.ok_bind.1 h
    obtain ⟨rfl, rfl⟩ := Exec.ok_pure.1 h
    have grows := (Exec.eval_onlyAllocates p call f e (free e (by simp))).grows hv
    obtain ⟨jobs, done, rfl, ordered, grows', later⟩ := ih (fun e he => free e (by simp [he])) hvs
    refine ⟨⟨v, m₀.maps.size, m.maps.size⟩ :: jobs, ?_, rfl, ?_, grows.trans grows', ?_⟩
    · exact .cons ⟨m₀, m, .refl _, hv, grows', rfl, rfl⟩ (done.imp fun _ _ h => h.mono grows (.refl _))
    · exact List.pairwise_cons.2 ⟨later, ordered⟩
    · intro j hj
      rcases List.mem_cons.1 hj with rfl | hj
      · exact Nat.le_refl _
      · exact Nat.le_trans grows.mapsLe (later j hj)

variable {S : Sides} {r : RedirectContext} {c : TypeContext} {u : Usage} {N : List String}
  {maps : List (Nat × Nat)} {e : Expr} {t : TypedExpr} {j : Job}
  (sound : S.Sound) (agrees : u.Agrees r c (S.view N f f' m₁))

include sound agrees

theorem Job.DoneBy.due (h : j.DoneBy S.source call f m₀ m₁ e) (below : Below maps m₀.maps.size)
    (ready : (S.view N f f' m₁).Ready maps m') (value : r.value c e = .ok t) (fits : e.Fits u)
    (names : e.names ⊆ N) : Due S m₁ maps m' (Exec.eval S.target S.call f' t.expr) j := by
  obtain ⟨lo, hi, le, run, ge, start, stop⟩ := h.run
  have mimics : Exec.Mimics (S.view N f f' m₁) maps (Exec.eval S.source call f e)
      (Exec.eval S.target S.call f' t.expr) (S.view N f f' m₁).Alike :=
    Exec.eval_mimics sound agrees e value fits names (.inl rfl)
  have due := Due.of_mimics mimics run ge
    (fun p hp => Nat.lt_of_lt_of_le (below p hp) le.mapsLe) ready
  obtain ⟨v, _, _⟩ := j
  obtain rfl := start
  obtain rfl := stop
  exact due

-- What reads no field can wait.
theorem Job.DoneBy.deferred (h : j.DoneBy S.source call f m₀ m₁ e)
    (below : Below maps m₀.maps.size) (value : r.value c e = .ok t) (fits : e.Fits u)
    (free : t.expr.isCallFree = true) : Deferred S m₁ f maps e.names t.expr j where
  due f'₁ m'₁ ready := by
    obtain ⟨lo, hi, le, run, ge, start, stop⟩ := h.run
    let w := View.mk S false e.names f f'₁ m₁
    have agrees' : u.Agrees r c w := ⟨agrees.receiver, agrees.strays, agrees.field⟩
    have mimics : Exec.Mimics w maps (Exec.eval S.source call f e)
        (Exec.eval S.target S.call f'₁ t.expr) w.Alike :=
      Exec.eval_mimics sound agrees' e value fits (List.Subset.refl _) (.inr free)
    have due := Due.of_mimics mimics run ge
      (fun p hp => Nat.lt_of_lt_of_le (below p hp) le.mapsLe) ready
    obtain ⟨v, _, _⟩ := j
    obtain rfl := start
    obtain rfl := stop
    exact due

end

end FieldAccess
