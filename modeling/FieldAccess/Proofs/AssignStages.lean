import FieldAccess.Proofs.Bindings
import FieldAccess.Proofs.FieldWrites

namespace FieldAccess

theorem FieldInfo.Stores.argument {info : FieldInfo} {k : BasicKind} (h : info.Stores k)
    (settings : Settings) (value : TypedExpr) (span : Span) :
    info.argument settings value span = value.expr := by
  obtain ⟨_, access⟩ := h.access
  simp only [FieldInfo.argument, FieldInfo.enum?, FieldInfo.classification?, access,
    Access.classification?, Option.bind_some, Classification.enum?]

section

variable {S : Sides} {N : List String} {m ms m' : Machine} {f f' : Frame}
  {maps : List (Nat × Nat)} {rounds : Nat}

-- The call of a mutator sets the field.
theorem Step.write_runs (rounds : Nat) (type : Option StaticType) (settings : Settings)
    (span : Span) (sound : S.Sound) {t : Twin} {name : String} {info : FieldInfo}
    {k : BasicKind} (mem : t ∈ S.twins) (stores : S.catalog.Stores t.entity name info k)
    {receiver e' : Expr} {y : String} (hy : receiver.unparen.ident? = some y)
    (var : f'.var? m' y = some (.object t.wrapper))
    {j : Job} (due : Due S m maps m' (Exec.eval S.target S.call f' e') j) (avoids : j.Avoids maps)
    (machines : Machines S N maps ms m') (same : ms.maps = m.maps) :
    ∃ ext m'₁, Step.exec S.target S.call rounds (info.write settings receiver ⟨e', type⟩ span) f' m' =
        .ok (.next, f') m'₁ ∧
      (∀ p ∈ ext, j.start ≤ p.1 ∧ p.1 < j.stop) ∧
      Machines S N (ext ++ maps) (ms.setField t.object name j.value) m'₁ ∧
      Spares [] f' m' f' m'₁ ∧ m'₁.globals = m'.globals := by
  have tables : MapsAlike S.loose maps m m' := machines.tables.of_maps_eq same.symm rfl
  obtain ⟨v', m'₁, ext, run, grows, within, tables₁, alike⟩ :=
    due.run (List.Subset.refl _) (.refl _) tables avoids
  have sub := List.subset_append_right ext maps
  have machines₁ : Machines S N (ext ++ maps) ms m'₁ :=
    machines.mono sub (.refl _) grows (tables₁.of_maps_eq same rfl)
  have wraps := (machines₁.mirrored t mem).toWraps
  refine ⟨ext, m'₁.store t.record info.key v', ?_, within, machines₁.setField sound mem stores alike,
    ?_, grows.globals⟩
  · have call := sound.write (v := v') mem stores wraps
    have base : Exec.eval S.target S.call f' receiver m' = .ok (.object t.wrapper) m' := by
      rw [Exec.eval_of_unparen hy]
      exact Exec.ok_eval_ident.2 ⟨var, rfl⟩
    rw [FieldInfo.write, stores.stores.argument, Step.exec]
    refine Step.ok_bind.2 ⟨[], f', _, Step.ok_reading.2 ⟨?_, rfl⟩, rfl⟩
    simp only [Exec.evalAll, Exec.callResults, Exec.receiver, Exec.actions, Exec.all, Exec.ok_bind,
      Exec.ok_pure]
    exact ⟨_, _, base, [v'], m'₁, ⟨v', m'₁, run, [], _, ⟨rfl, rfl⟩, rfl, rfl⟩, call⟩
  · refine (Spares.of_grows grows).trans ⟨fun _ _ => rfl, fun _ _ => rfl, .of_eq rfl⟩

end

-- A target, the value that it gets, and what is left to be done for it.
structure Slot where
  place : Place
  job : Job
  plan : TargetPlan

namespace Slot

def write (s : Slot) : Place × Value :=
  (s.place, s.job.value)

section

variable (S : Sides) (N : List String) (m : Machine) (f : Frame) (written early : List String)

-- What is left is at hand: operands are variables, and values can still be had. The written
-- variables are the ones that are assigned; mutators use none of those that are so before they run.
inductive Pending (maps : List (Nat × Nat)) (f' : Frame) (m' : Machine) : Slot → Prop
  | field {t : Twin} {name y : String} {info : FieldInfo} {k : BasicKind} {receiver e' : Expr}
      {type : Option StaticType} {settings : Settings} {span : Span} {j : Job} {c : Captured} :
      t ∈ S.twins → S.catalog.Stores t.entity name info k → receiver.unparen.ident? = some y →
      y ∉ early → f'.var? m' y = some (.object t.wrapper) → Late S N m f early maps f' m' e' j →
      Pending maps f' m' ⟨.field t.object name, j,
        ⟨c, none, some (info.write settings receiver ⟨e', type⟩ span)⟩⟩
  | named {x : String} {span : Span} {e' : Expr} {j : Job} {c : Captured} :
      x ∈ written → x ≠ "_" → S.receiver ≠ some x → Late S N m f [] maps f' m' e' j →
      Pending maps f' m' ⟨.named x, j, ⟨c, some (.ident span x, e'), none⟩⟩
  | blank {span : Span} {e' : Expr} {j : Job} {c : Captured} : Late S N m f [] maps f' m' e' j →
      Pending maps f' m' ⟨.blank, j, ⟨c, some (.ident span "_", e'), none⟩⟩
  | done {j : Job} {c : Captured} : Pending maps f' m' ⟨.blank, j, ⟨c, none, none⟩⟩

end

section

variable {S : Sides} {N N₀ : List String} {m ms ms₁ m' m'₁ : Machine} {f fs fs₁ f' f'₁ : Frame}
  {written early : List String} {maps maps₁ : List (Nat × Nat)} {rounds : Nat} {s : Slot}
  {slots : List Slot} {u : Unit}

theorem Pending.simple (h : Pending S N m f written early maps f' m' s) :
    s.write.1.IsVariable ∨ s.write.1.isField = true := by
  cases h with
  | field => exact .inr rfl
  | named => exact .inl .named
  | blank | done => exact .inl .blank

-- No slot is both left to the plain part and to a mutator.
theorem Pending.plain_or_field (h : Pending S N m f written early maps f' m' s)
    (plain : s.plan.plain.isSome = true) : ¬ s.place.isField = true := by
  cases h with
  | field | done => cases plain
  | named | blank => nofun

-- Calls of mutators spare all variables.
theorem Pending.spares (h : Pending S N m f written early maps f' m' s)
    (later : Spares [] f' m' f'₁ m'₁) (sub : maps ⊆ maps₁) (counted : early ⊆ N) :
    Pending S N m f written early maps₁ f'₁ m'₁ s := by
  have nil : ([] : List String) ⊆ early := List.nil_subset _
  cases h with
  | field mem stores hy free var late =>
    exact .field mem stores hy free ((later.var _ (by simp)).trans var)
      (late.spares (later.mono nil) sub counted)
  | named mem named other late =>
    exact .named mem named other (late.spares later sub (List.nil_subset _))
  | blank late => exact .blank (late.spares later sub (List.nil_subset _))
  | done => exact .done

-- The slot of a target that is no field.
structure Plain (s : Slot) : Prop where
  place : s.place.isField = false
  mutator : s.plan.mutator = none

-- The slots of fields are not affected by the assignments that are made before.
theorem Pending.plain_or (h : Pending S N m f written early maps f' m' s)
    (later : Spares early f' m' f'₁ m'₁) (sub : maps ⊆ maps₁) (counted : early ⊆ N) :
    s.Plain ∨ Pending S N m f written early maps₁ f'₁ m'₁ s := by
  cases h with
  | field mem stores hy free var late =>
    exact .inr (.field mem stores hy free ((later.var _ free).trans var)
      (late.spares later sub counted))
  | named | blank | done => exact .inl ⟨rfl, rfl⟩

variable (rounds) in
-- The mutators of the slots set the fields.
theorem mutators_run (sound : S.Sound) (counted : early ⊆ N)
    (pending : ∀ s ∈ slots, s.Plain ∨ Pending S N m f written early maps f' m' s)
    (apart : (slots.map (·.job)).Pairwise Job.Apart)
    (avoids : ∀ s ∈ slots, s.place.isField = true → s.job.Avoids maps)
    (machines : Machines S N₀ maps ms m') (same : ms.maps = m.maps) :
    ∃ maps₁ m'₁, maps ⊆ maps₁ ∧
      Step.sequence (Step.steps S.target S.call rounds (slots.filterMap (·.plan.mutator))) f' m' =
        .ok (.next, f') m'₁ ∧
      Machines S N₀ maps₁ (Place.setFields (slots.map write) ms) m'₁ ∧ Spares [] f' m' f' m'₁ ∧
      m'₁.globals = m'.globals ∧
      ∀ k : Job, (∀ s ∈ slots, s.place.isField = true → s.job.Apart k) → k.Avoids maps →
        k.Avoids maps₁ := by
  induction slots generalizing maps ms m' with
  | nil => exact ⟨maps, m', List.Subset.refl _, rfl, machines, .refl .., rfl, fun _ _ h => h⟩
  | cons s slots ih =>
    rw [List.map_cons, List.pairwise_cons] at apart
    have skip (plain : s.Plain) : ∃ maps₁ m'₁, maps ⊆ maps₁ ∧
        Step.sequence (Step.steps S.target S.call rounds
          ((s :: slots).filterMap (·.plan.mutator))) f' m' = .ok (.next, f') m'₁ ∧
        Machines S N₀ maps₁ (Place.setFields ((s :: slots).map write) ms) m'₁ ∧
        Spares [] f' m' f' m'₁ ∧ m'₁.globals = m'.globals ∧
        ∀ k : Job, (∀ t ∈ s :: slots, t.place.isField = true → t.job.Apart k) → k.Avoids maps →
          k.Avoids maps₁ := by
      obtain ⟨maps₁, m'₁, sub, run, machines₁, spares, globals, avoids₁⟩ :=
        ih (fun s hs => pending s (by simp [hs])) apart.2 (fun s hs => avoids s (by simp [hs]))
          machines same
      refine ⟨maps₁, m'₁, sub, ?_, ?_, spares, globals,
        fun k hk => avoids₁ k fun s hs => hk s (by simp [hs])⟩
      · simp only [List.filterMap_cons, plain.mutator]
        exact run
      · obtain ⟨place, _, _⟩ := s
        have noField := plain.place
        cases place <;> first | exact machines₁ | cases noField
    rcases pending s (by simp) with plain | h
    · exact skip plain
    · cases h with
      | named | blank | done => exact skip ⟨rfl, rfl⟩
      | @field t name y info k receiver e' type settings span j c mem stores hy free var late =>
        obtain ⟨ext, m'₁, run, within, machines₁, spares, globals⟩ :=
          Step.write_runs rounds type settings span sound mem stores hy var late.due
            (avoids _ (List.mem_cons_self ..) rfl) machines same
        have sub := List.subset_append_right ext maps
        obtain ⟨maps₂, m'₂, sub₂, run₂, machines₂, spares₂, globals₂, avoids₂⟩ :=
          @ih _ _ (ext ++ maps)
            (fun s hs => (pending s (by simp [hs])).imp_right fun h => h.spares spares sub counted)
            apart.2
            (fun s hs isField => (avoids s (by simp [hs]) isField).append within
              (apart.1 _ (List.mem_map_of_mem hs)))
            machines₁ same
        refine ⟨maps₂, m'₂, List.Subset.trans sub sub₂, ?_, machines₂, spares.trans spares₂,
          globals₂.trans globals, fun k hk hm => ?_⟩
        · exact Step.ok_bind.2 ⟨.next, f', m'₁, run, run₂⟩
        · exact avoids₂ k (fun s hs => hk s (by simp [hs]))
            (hm.append within (hk _ (List.mem_cons_self ..) rfl))

-- A target that stays in the plain part, with its value.
structure Assigns (S : Sides) (N : List String) (m : Machine) (f : Frame) (written : List String)
    (maps : List (Nat × Nat)) (f' : Frame) (m' : Machine) (pair : Expr × Expr) (w : Place × Job) :
    Prop where
  target : (w.1 = .blank ∧ ∃ span, pair.1 = .ident span "_") ∨
    ∃ x span, w.1 = .named x ∧ pair.1 = .ident span x ∧ x ∈ written ∧ x ≠ "_" ∧ S.receiver ≠ some x
  value : Late S N m f [] maps f' m' pair.2 w.2

theorem writePairs_blank (v : Value) (writes : List (Place × Value)) :
    Place.writePairs ((.blank, v) :: writes) = Place.writePairs writes := by
  funext f m
  rfl

-- The slot of a field.
structure Fielded (s : Slot) : Prop where
  place : s.place.isField = true
  plain : s.plan.plain = none

-- The plain part of a plan, apart from blank targets without effect, is what is written to
-- anything but fields.
theorem exists_plain
    (pending : ∀ s ∈ slots, s.Fielded ∨ Pending S N m f written early maps f' m' s) :
    ∃ ws : List (Place × Job),
      List.Forall₂ (Assigns S N m f written maps f' m') (slots.filterMap (·.plan.plain)) ws ∧
      (ws.map (·.2)).Sublist (slots.map (·.job)) ∧
      (∀ w ∈ ws, ∃ s ∈ slots, s.plan.plain.isSome = true ∧ s.job = w.2) ∧
      Place.writePairs (Place.others (slots.map write)) =
        Place.writePairs (ws.map fun w => (w.1, w.2.value)) := by
  induction slots with
  | nil => exact ⟨[], .nil, List.nil_sublist _, by simp, rfl⟩
  | cons s slots ih =>
    obtain ⟨ws, assigns, sublist, origin, same⟩ := ih fun s hs => pending s (by simp [hs])
    have origin' : ∀ w ∈ ws, ∃ t ∈ s :: slots, t.plan.plain.isSome = true ∧ t.job = w.2 :=
      fun w hw =>
        have ⟨t, ht, h⟩ := origin w hw
        ⟨t, List.mem_cons_of_mem _ ht, h⟩
    have skip (fielded : s.Fielded) : ∃ ws : List (Place × Job),
        List.Forall₂ (Assigns S N m f written maps f' m') ((s :: slots).filterMap (·.plan.plain))
          ws ∧
        (ws.map (·.2)).Sublist ((s :: slots).map (·.job)) ∧
        (∀ w ∈ ws, ∃ t ∈ s :: slots, t.plan.plain.isSome = true ∧ t.job = w.2) ∧
        Place.writePairs (Place.others ((s :: slots).map write)) =
          Place.writePairs (ws.map fun w => (w.1, w.2.value)) := by
      refine ⟨ws, ?_, .cons _ sublist, origin', ?_⟩
      · rwa [List.filterMap_cons, fielded.plain]
      · have dropped : Place.others ((s :: slots).map write) = Place.others (slots.map write) := by
          rw [Place.others, List.map_cons, List.filter_cons, if_neg (by simp [write, fielded.place])]
          rfl
        rw [dropped, same]
    rcases pending s (by simp) with fielded | h
    · exact skip fielded
    cases h with
    | field => exact skip ⟨rfl, rfl⟩
    | done =>
      refine ⟨ws, assigns, .cons _ sublist, origin', ?_⟩
      exact (writePairs_blank _ _).trans same
    | @named x span e' j c mem named other late =>
      refine ⟨(.named x, j) :: ws, .cons ⟨.inr ⟨x, span, rfl, rfl, mem, named, other⟩, late⟩ assigns,
        .cons_cons _ sublist, ?_, ?_⟩
      · exact List.forall_mem_cons.2 ⟨⟨_, List.mem_cons_self .., rfl, rfl⟩, origin'⟩
      · change (Place.write (.named x) j.value >>= fun _ =>
          Place.writePairs (Place.others (slots.map write))) = _
        rw [same]
        rfl
    | @blank span e' j c late =>
      refine ⟨(.blank, j) :: ws, .cons ⟨.inl ⟨rfl, span, rfl⟩, late⟩ assigns, .cons_cons _ sublist,
        ?_, ?_⟩
      · exact List.forall_mem_cons.2 ⟨⟨_, List.mem_cons_self .., rfl, rfl⟩, origin'⟩
      · exact (writePairs_blank _ _).trans (same.trans (writePairs_blank _ _).symm)

-- Writing variables spares the others.
theorem spares_writeAll {places : List Place} {values : List Value}
    (h : ∀ place ∈ places, place = .blank ∨ ∃ x ∈ written, place = .named x)
    (run : Step.writeAll places values f' m' = .ok (u, f'₁) m'₁) : Spares written f' m' f'₁ m'₁ := by
  induction places generalizing values f' m' with
  | nil =>
    obtain ⟨_, rfl, rfl⟩ := Step.ok_pure.1 run
    exact .refl ..
  | cons place places ih =>
    cases values with
    | nil =>
      obtain ⟨_, rfl, rfl⟩ := Step.ok_pure.1 run
      exact .refl ..
    | cons v values =>
      rw [Step.writeAll] at run
      obtain ⟨_, f₂, m₂, wrote, rest⟩ := Step.ok_bind.1 run
      have later := ih (fun place hp => h place (by simp [hp])) rest
      refine Spares.trans ?_ later
      rcases h place (by simp) with rfl | ⟨x, mem, rfl⟩
      · obtain ⟨_, got, rfl⟩ := Place.ok_access_blank.1 wrote
        obtain ⟨_, rfl⟩ := Exec.ok_pure.1 got
        exact .refl ..
      · rcases Place.ok_write_named.1 wrote with ⟨_, _, rfl, rfl⟩ | ⟨_, hx, _, rfl, rfl⟩
        · have keeps (y : String) (hy : y ∉ written) : (f'.assign x v).get? y = f'.get? y :=
            Frame.get?_assign_of_ne v fun e => hy (e ▸ mem)
          refine ⟨fun y hy => ?_, keeps, .of_eq rfl⟩
          rw [Frame.var?, Frame.var?, keeps y hy]
        · refine ⟨fun y hy => ?_, fun _ _ => rfl, .of_eq rfl⟩
          have ne : y ≠ x := fun e => hy (e ▸ mem)
          simp only [Frame.var?, Machine.setGlobal, Table.get?_insert, if_neg ne]

theorem places_of_assigns {pairs : List (Expr × Expr)} {ws : List (Place × Job)}
    (p : Program) (call : CallHandler) (g : Frame) (n : Machine) (counted : written ⊆ N₀)
    (h : List.Forall₂ (Assigns S N m f written maps f' m') pairs ws) :
    Place.resolveEach p call g (pairs.map (·.1)) n = .ok (ws.map (·.1)) n ∧
      List.Forall₂ (Place.Alike S N₀ maps) (ws.map (·.1)) (ws.map (·.1)) ∧
      ∀ place ∈ ws.map (·.1), place = .blank ∨ ∃ x ∈ written, place = .named x := by
  induction h with
  | nil => exact ⟨rfl, .nil, by simp⟩
  | @cons pair w pairs ws head tail ih =>
    obtain ⟨resolved, alike, forms⟩ := ih
    have place : Place.resolve p call g pair.1 n = .ok w.1 n ∧ Place.Alike S N₀ maps w.1 w.1 ∧
        (w.1 = .blank ∨ ∃ x ∈ written, w.1 = .named x) := by
      rcases head.target with ⟨hw, span, hp⟩ | ⟨x, span, hw, hp, mem, named, other⟩
      · rw [hw, hp]
        exact ⟨rfl, .blank, .inl rfl⟩
      · rw [hw, hp, Place.resolve, if_neg named]
        exact ⟨rfl, .named (counted mem) other, .inr ⟨x, mem, rfl⟩⟩
    refine ⟨?_, .cons place.2.1 alike, ?_⟩
    · exact Exec.ok_bind.2 ⟨_, n, place.1, Exec.ok_bind.2 ⟨_, n, resolved, rfl⟩⟩
    · intro q hq
      rcases List.mem_cons.1 hq with rfl | hq
      · exact place.2.2
      · exact forms q hq

variable (rounds) in
-- The plain part of a plan writes the variables.
theorem plain_runs (counted : written ⊆ N₀) (span : Span)
    (pending : ∀ s ∈ slots, s.Fielded ∨ Pending S N m f written early maps f' m' s)
    (apart : (slots.map (·.job)).Pairwise Job.Apart)
    (avoids : ∀ s ∈ slots, s.plan.plain.isSome = true → s.job.Avoids maps)
    (states : States S N₀ maps fs ms f' m') (same : ms.maps = m.maps)
    (run : Place.writePairs (Place.others (slots.map write)) fs ms = .ok (u, fs₁) ms₁) :
    ∃ maps₁ f'₁ m'₁, maps ⊆ maps₁ ∧
      Step.sequence (Step.steps S.target S.call rounds
        (plainStatement? span (slots.filterMap (·.plan.plain))).toList) f' m' =
          .ok (.next, f'₁) m'₁ ∧
      States S N₀ maps₁ fs₁ ms₁ f'₁ m'₁ ∧ Spares written f' m' f'₁ m'₁ ∧
      ∀ k : Job, (∀ s ∈ slots, s.plan.plain.isSome = true → s.job.Apart k) → k.Avoids maps →
        k.Avoids maps₁ := by
  obtain ⟨ws, assigns, sublist, origin, split⟩ := exists_plain pending
  rw [split] at run
  generalize hp : slots.filterMap (·.plan.plain) = pairs at assigns
  have tables : MapsAlike S.loose maps m m' := states.tables.of_maps_eq same.symm rfl
  have jobs : ∀ j ∈ ws.map (·.2), j.Avoids maps := fun j hj => by
    obtain ⟨w, hw, rfl⟩ := List.mem_map.1 hj
    obtain ⟨s, hs, plain, e⟩ := origin w hw
    exact e ▸ avoids s hs plain
  have due : List.Forall₂ (fun x' j => Due S m maps m' x' j)
      (pairs.map fun pair => Exec.eval S.target S.call f' pair.2) (ws.map (·.2)) := by
    rw [List.forall₂_map_left_iff, List.forall₂_map_right_iff]
    exact assigns.imp fun _ _ h => h.value.due
  obtain ⟨vs', m'₁, ext, evaluated, grows, tables₁, alike, avoids₁⟩ :=
    all_due due (apart.sublist sublist) jobs tables
  have sub := List.subset_append_right ext maps
  obtain ⟨resolved, places, forms⟩ :=
    places_of_assigns S.target S.call f' m' counted assigns
  have states₁ : States S N₀ (ext ++ maps) fs ms f' m'₁ :=
    states.mono sub (.refl _) grows (tables₁.of_maps_eq same rfl)
  have alike : List.Forall₂ (Value.Alike S.loose (ext ++ maps))
      ((ws.map fun w => (w.1, w.2.value)).map (·.2)) vs' := by
    rw [List.map_map]
    rw [List.forall₂_map_left_iff] at alike ⊢
    exact alike
  have places : List.Forall₂ (Place.Alike S N₀ (ext ++ maps))
      ((ws.map fun w => (w.1, w.2.value)).map (·.1)) (ws.map (·.1)) := by
    rw [List.map_map]
    exact places.imp fun _ _ h => h.mono sub
  obtain ⟨f'₁, m'₂, wrote, states₂, _, _⟩ := Place.writeAll_alike states₁ places alike run
  have later := spares_writeAll forms wrote
  refine ⟨ext ++ maps, f'₁, m'₂, sub, ?_, states₂, (Spares.of_grows grows).trans later,
    fun k hk hm => avoids₁ k (fun j hj => ?_) hm⟩
  · unfold plainStatement?
    split
    case isTrue empty =>
      obtain rfl := List.isEmpty_iff.1 empty
      cases assigns
      obtain ⟨_, rfl⟩ := Exec.ok_pure.1 evaluated
      obtain ⟨_, rfl, rfl⟩ := Step.ok_pure.1 wrote
      rfl
    case isFalse =>
      rw [Option.toList, Step.steps, Step.steps, Step.sequence_single, Step.exec]
      refine Step.ok_assign.2 ⟨_, m', vs', m'₁, resolved, ?_, wrote, rfl⟩
      refine (Exec.evalFor_paired (by simp)).2 ?_
      rw [Exec.actions_eq, List.map_map]
      exact evaluated
  · obtain ⟨w, hw, e⟩ := List.mem_map.1 hj
    obtain ⟨s, hs, plain, same⟩ := origin w hw
    exact e ▸ same ▸ hk s hs plain

end

end Slot

end FieldAccess
