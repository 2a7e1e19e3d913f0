import FieldAccess.Proofs.AssignParts

namespace FieldAccess

theorem exists_forall₂ {α β : Type} {R : α → β → Prop} {l : List α} (h : ∀ a ∈ l, ∃ b, R a b) :
    ∃ bs, List.Forall₂ R l bs := by
  induction l with
  | nil => exact ⟨[], .nil⟩
  | cons a l ih =>
    obtain ⟨b, head⟩ := h a (by simp)
    obtain ⟨bs, tail⟩ := ih fun a ha => h a (by simp [ha])
    exact ⟨b :: bs, .cons head tail⟩

theorem exists_rel_of_mem_right {α β : Type} {R : α → β → Prop} {as : List α} {bs : List β} {b : β}
    (h : List.Forall₂ R as bs) (hb : b ∈ bs) : ∃ a ∈ as, R a b := by
  induction h with
  | nil => cases hb
  | @cons a _ _ _ head _ ih =>
    rcases List.mem_cons.1 hb with rfl | hb
    · exact ⟨a, by simp, head⟩
    · obtain ⟨a, ha, rel⟩ := ih hb
      exact ⟨a, by simp [ha], rel⟩

theorem exists_mem_zip {α β : Type} {R : α → β → Prop} {as : List α} {bs : List β} {a : α}
    (h : List.Forall₂ R as bs) (ha : a ∈ as) : ∃ b, (a, b) ∈ as.zip bs ∧ R a b := by
  induction h with
  | nil => cases ha
  | @cons _ b _ _ head _ ih =>
    rcases List.mem_cons.1 ha with rfl | ha
    · exact ⟨b, by simp, head⟩
    · obtain ⟨b, mem, rel⟩ := ih ha
      exact ⟨b, by simp [mem], rel⟩

-- Jobs of different kinds are apart.
theorem Job.apart_of {α : Type} {job : α → Job} {l : List α} {P Q : α → Prop}
    (apart : (l.map job).Pairwise Job.Apart) (disjoint : ∀ a ∈ l, P a → ¬ Q a) :
    ∀ a ∈ l, ∀ b ∈ l, P a → Q b → (job a).Apart (job b) := by
  induction l with
  | nil => simp
  | cons c l ih =>
    rw [List.map_cons, List.pairwise_cons] at apart
    have rest := ih apart.2 fun a ha => disjoint a (by simp [ha])
    have first (b : α) (hb : b ∈ l) : (job c).Apart (job b) := apart.1 _ (List.mem_map_of_mem hb)
    intro a ha b hb hP hQ
    rcases List.mem_cons.1 ha with rfl | ha' <;> rcases List.mem_cons.1 hb with rfl | hb'
    · exact absurd hQ (disjoint _ (by simp) hP)
    · exact first b hb'
    · exact (first a ha').symm
    · exact rest a ha' b hb' hP hQ

section

variable {S : Sides} {N K : List String} {f f' f'₁ : Frame} {m₁ m' m'₁ : Machine}
  {maps : List (Nat × Nat)}

-- What the temporaries are added to stays readable.
theorem View.Ready.unread (h : (S.view K f f' m₁).Ready maps m') (extends₁ : f'.Extends N f'₁)
    (sub : K ⊆ N) (scopes : f'.scopes ≠ []) (grows : m'.Grows m'₁) :
    (View.mk S false K f f'₁ m₁).Ready maps m'₁ ∧ ∀ x ∈ K, f'₁.var? m'₁ x = f'.var? m' x := by
  have same (x : String) (hx : x ∈ K) : f'₁.var? m'₁ x = f'.var? m' x := by
    rw [Frame.var?, Frame.var?, extends₁.get? (sub hx) scopes, grows.globals]
  refine ⟨⟨h.tables.grow_right grows, fun x hx v hv => ?_, by simp, by simp⟩, same⟩
  obtain ⟨v', hv', alike⟩ := h.vars x hx v hv
  exact ⟨v', (same x hx).trans hv', alike⟩

end

namespace Slot

-- Plain part and mutators, one after the other, write what is left to be written.
theorem stages_run {S : Sides} {N K written : List String} {f fs fs₁ f' : Frame}
    {m₁ m₂ m' : Machine} {maps : List (Nat × Nat)} {slots : List Slot} {u : Unit} (rounds : Nat)
    (sound : S.Sound) (counted : written ⊆ K) (sub : K ⊆ N) (span : Span)
    (pending : ∀ s ∈ slots, s.Pending S K m₁ f written written maps f' m')
    (apart : (slots.map (·.job)).Pairwise Job.Apart) (avoids : ∀ s ∈ slots, s.job.Avoids maps)
    (states : States S N maps fs m₁ f' m')
    (run : Place.writePairs (slots.map write) fs m₁ = .ok (u, fs₁) m₂) :
    ∃ maps₁ f'₁ m'₁, maps ⊆ maps₁ ∧
      Step.sequence (Step.steps S.target S.call rounds
        ((plainStatement? span (slots.filterMap (·.plan.plain))).toList ++
          slots.filterMap (·.plan.mutator))) f' m' = .ok (.next, f'₁) m'₁ ∧
      States S N maps₁ fs₁ m₂ f'₁ m'₁ := by
  have simple : ∀ w ∈ slots.map write, w.1.IsVariable ∨ w.1.isField = true := by
    rw [List.forall_mem_map]
    exact fun s hs => (pending s hs).simple
  obtain ⟨mp, plainRun, rfl⟩ := (Place.writePairs_split simple).1 run
  obtain ⟨maps₁, f'₁, m'₁, sub₁, run₁, states₁, spares, avoids₁⟩ :=
    plain_runs rounds (List.Subset.trans counted sub) span
      (fun s hs => .inr (pending s hs)) apart (fun s hs _ => avoids s hs) states rfl plainRun
  have apart' : ∀ s ∈ slots, ∀ t ∈ slots, s.plan.plain.isSome = true → t.place.isField = true →
      s.job.Apart t.job :=
    Job.apart_of apart fun s hs plain isField => (pending s hs).plain_or_field plain isField
  obtain ⟨maps₂, m'₂, sub₂, run₂, machines₂, _⟩ :=
    mutators_run rounds sound counted
      (fun s hs => (pending s hs).plain_or spares sub₁ counted) apart
      (fun s hs isField => avoids₁ _ (fun t ht plain => apart' t ht s hs plain isField) (avoids s hs))
      states₁.toMachines (Place.writePairs_maps (Place.isVariable_of_others simple) plainRun)
  refine ⟨maps₂, f'₁, m'₂, List.Subset.trans sub₁ sub₂, ?_, machines₂, states₁.scopes.mono sub₂⟩
  rw [Step.steps_append, Step.sequence_append_of_ok run₁]
  exact run₂

end Slot

-- A part, with what is bound for its target and for its value.
structure BoundPart extends Part where
  first : List Binding
  second : List Binding

namespace BoundPart

def write (b : BoundPart) : Place × Value :=
  (b.share.place, b.share.job.value)

-- All that is bound: first for the targets, then for the values.
def bindings (bs : List BoundPart) : List Binding :=
  bs.flatMap (·.first) ++ bs.flatMap (·.second)

-- The slot that is left of a part.
structure Leaves (b : BoundPart) (s : Slot) : Prop where
  job : b.share.Leaves b.second s.job
  slot : s = b.slot s.job

section

variable {bs : List BoundPart} {slots : List Slot}

theorem map_plan (h : List.Forall₂ Leaves bs slots) :
    slots.map (·.plan) = bs.map (·.plan) := by
  induction h with
  | nil => rfl
  | cons head _ ih =>
    rw [List.map_cons, List.map_cons, ih, head.slot]
    rfl

theorem map_write (h : List.Forall₂ Leaves bs slots) : slots.map Slot.write = bs.map write := by
  induction h with
  | nil => rfl
  | @cons b s _ _ head _ ih =>
    have value : s.job.value = b.share.job.value := by
      rcases head.job with ⟨e, _⟩ | e <;> rw [e]
      rfl
    rw [List.map_cons, List.map_cons, ih, Slot.write, value, head.slot]
    rfl

theorem filterMap_mutator (h : List.Forall₂ Leaves bs slots) :
    slots.filterMap (·.plan.mutator) = bs.filterMap (·.plan.mutator) := by
  have := congrArg (List.filterMap TargetPlan.mutator) (map_plan h)
  simpa [List.filterMap_map, Function.comp_def] using this

theorem filterMap_plain (h : List.Forall₂ Leaves bs slots) :
    slots.filterMap (·.plan.plain) = bs.filterMap (·.plan.plain) := by
  have := congrArg (List.filterMap TargetPlan.plain) (map_plan h)
  simpa [List.filterMap_map, Function.comp_def] using this

theorem Leaves.apart {b : BoundPart} {s : Slot} (h : b.Leaves s) {k : Job}
    (apart : b.share.job.Apart k) : s.job.Apart k := by
  rcases h.job with ⟨e, _⟩ | e <;> rw [e]
  · exact apart
  · exact Job.ofRead_apart _ _

theorem slots_apart (h : List.Forall₂ Leaves bs slots)
    (apart : (bs.map (·.share.job)).Pairwise Job.Apart) :
    (slots.map (·.job)).Pairwise Job.Apart := by
  induction h with
  | nil => exact .nil
  | @cons b s bs slots head tail ih =>
    rw [List.map_cons, List.pairwise_cons] at apart ⊢
    refine ⟨fun k hk => ?_, ih apart.2⟩
    obtain ⟨t, ht, rfl⟩ := List.mem_map.1 hk
    obtain ⟨c, hc, left⟩ := exists_rel_of_mem_right tail ht
    have both : s.job.Apart c.share.job := head.apart (apart.1 _ (List.mem_map_of_mem hc))
    exact (left.apart both.symm).symm

-- What is bound for the values is evaluated by jobs of theirs.
theorem jobs_sublist (own : ∀ b ∈ bs, (b.second.map (·.job)).Sublist [b.share.job]) :
    ((bs.flatMap (·.second)).map (·.job)).Sublist (bs.map (·.share.job)) := by
  induction bs with
  | nil => exact List.nil_sublist _
  | cons b bs ih =>
    rw [List.flatMap_cons, List.map_append, List.map_cons]
    exact (own b (by simp)).append (ih fun b hb => own b (by simp [hb]))

end

section

variable {S : Sides} {N K : List String} {f f' f'₁ : Frame} {m₁ m' m'₁ : Machine}
  {written early : List String} {maps maps₁ : List (Nat × Nat)} {bs : List BoundPart}
  {rounds : Nat} {span : Span}

-- The temporaries among what is bound are new and differ from one another.
structure Fresh (N : List String) (bs : List BoundPart) : Prop where
  new : ∀ b ∈ bindings bs, b.name ∉ N ∨ b.name = "_"
  nodup : (((bindings bs).map (·.name)).filter (· ≠ "_")).Nodup

variable (rounds) in
-- The bindings evaluate what is bound, and the temporaries hold it.
theorem bindings_run
    (bound : ∀ b ∈ bs, b.toPart.Bound S K m₁ f written early maps f' m' b.first b.second)
    (apart : (bs.map (·.share.job)).Pairwise Job.Apart)
    (avoids : ∀ b ∈ bs, b.share.job.Avoids maps) (tables : MapsAlike S.loose maps m₁ m')
    (fresh : Fresh N bs) (sub : K ⊆ N) (scopes : f'.scopes ≠ []) :
    ∃ ext f'₁ m'₁,
      Step.sequence (Step.steps S.target S.call rounds
        ((Binding.captured (bindings bs)).statement? span).toList) f' m' =
          .ok (.next, f'₁) m'₁ ∧
      f'.Extends N f'₁ ∧ m'.Grows m'₁ ∧ MapsAlike S.loose (ext ++ maps) m₁ m'₁ ∧
      (∀ b ∈ bindings bs, b.name ≠ "_" → b.Held S K (ext ++ maps) f'₁) ∧
      ∀ k : Job, (∀ b ∈ bs, b.second ≠ [] → b.share.job.Apart k) → k.Avoids maps →
        k.Avoids (ext ++ maps) := by
  have due : ∀ b ∈ bindings bs, Due S m₁ maps m' (Exec.eval S.target S.call f' b.expr) b.job := by
    intro b hb
    rcases List.mem_append.1 hb with hb | hb <;> obtain ⟨c, hc, mem⟩ := List.mem_flatMap.1 hb
    · exact (bound c hc).due b (List.mem_append_left _ mem)
    · exact (bound c hc).due b (List.mem_append_right _ mem)
  have reads : ∀ b ∈ bs.flatMap (·.first), ∃ v, b.job = .ofRead v := by
    intro b hb
    obtain ⟨c, hc, mem⟩ := List.mem_flatMap.1 hb
    exact (bound c hc).reads b mem
  have own := jobs_sublist fun b hb => (bound b hb).own
  have apart' : ((bindings bs).map (·.job)).Pairwise Job.Apart := by
    rw [bindings, List.map_append, List.pairwise_append]
    refine ⟨List.pairwise_of_forall_mem_list fun j hj k _ => ?_, apart.sublist own,
      fun j hj k _ => ?_⟩ <;>
    · obtain ⟨b, hb, rfl⟩ := List.mem_map.1 hj
      obtain ⟨v, e⟩ := reads b hb
      exact e ▸ Job.ofRead_apart v k
  have avoids' : ∀ j ∈ (bindings bs).map (·.job), j.Avoids maps := by
    intro j hj
    rw [bindings, List.map_append] at hj
    rcases List.mem_append.1 hj with hj | hj
    · obtain ⟨b, hb, rfl⟩ := List.mem_map.1 hj
      obtain ⟨v, e⟩ := reads b hb
      exact e ▸ Job.ofRead_avoids v maps
    · obtain ⟨b, hb, rfl⟩ := List.mem_map.1 (own.subset hj)
      exact avoids b hb
  obtain ⟨vs', m'₁, ext, run, grows, tables₁, alike, others⟩ :=
    all_due (List.forall₂_map_left_iff.2 (List.forall₂_map_right_iff.2
      (List.forall₂_same.2 due))) apart' avoids' tables
  have length : (bindings bs).length = vs'.length := by simpa using alike.length_eq
  have evaluated : Exec.evalFor S.target S.call f' (Binding.captured (bindings bs)).names.length
      (Binding.captured (bindings bs)).values m' = .ok vs' m'₁ := by
    refine (Exec.evalFor_paired (by simp [Binding.captured])).2 ?_
    rw [Exec.actions_eq, Binding.captured, List.map_map]
    exact run
  refine ⟨ext, _, m'₁, Step.captured_runs evaluated, .of_entries ?_, grows, tables₁,
    fun b hb named => ?_, fun k hk => others k fun j hj => ?_⟩
  · intro e he
    obtain ⟨b, hb, same⟩ := List.mem_map.1 (List.of_mem_zip he).1
    exact same ▸ fresh.new b hb
  · obtain ⟨v', mem, rel⟩ := exists_mem_zip (List.forall₂_map_left_iff.1 alike) hb
    refine ⟨fun h => ((fresh.new b hb).resolve_right named) (sub h), v', ?_, rel⟩
    refine Frame.get?_defineAll ?_ ?_ named scopes
    · rw [Binding.captured, List.zip_map_left]
      exact List.mem_map.2 ⟨(b, v'), mem, rfl⟩
    · rw [List.map_fst_zip (by simp [Binding.captured, length])]
      exact fresh.nodup
  · rw [bindings, List.map_append] at hj
    rcases List.mem_append.1 hj with hj | hj
    · obtain ⟨b, hb, rfl⟩ := List.mem_map.1 hj
      obtain ⟨v, e⟩ := reads b hb
      exact e ▸ Job.ofRead_apart v k
    · obtain ⟨b, hb, rfl⟩ := List.mem_map.1 hj
      obtain ⟨c, hc, mem⟩ := List.mem_flatMap.1 hb
      have same : b.job = c.share.job := by
        simpa using (bound c hc).own.subset (List.mem_map_of_mem mem)
      exact same ▸ hk c hc fun none => by simp [none] at mem

section

variable (bound : ∀ b ∈ bs, b.toPart.Bound S K m₁ f written early maps f' m' b.first b.second)

include bound

-- The parts leave slots that are pending, as far as the temporaries hold what is bound for them.
theorem exists_slot {b : BoundPart} (mem : b ∈ bs)
    (ready : (View.mk S false K f f'₁ m₁).Ready maps m'₁) (sub : maps ⊆ maps₁)
    (same : ∀ x ∈ K, f'₁.var? m'₁ x = f'.var? m' x)
    (held : ∀ d ∈ b.first ++ b.second, d.name ≠ "_" → d.Held S K maps₁ f'₁) :
    ∃ s, b.Leaves s ∧ s.Pending S K m₁ f written early maps₁ f'₁ m'₁ := by
  obtain ⟨job, left, pending⟩ := (bound b mem).pending sub ready same held
  exact ⟨_, ⟨left, rfl⟩, pending⟩

theorem exists_slots (ready : (View.mk S false K f f'₁ m₁).Ready maps m'₁) (sub : maps ⊆ maps₁)
    (same : ∀ x ∈ K, f'₁.var? m'₁ x = f'.var? m' x)
    (held : ∀ d ∈ bindings bs, d.name ≠ "_" → d.Held S K maps₁ f'₁) :
    ∃ slots, List.Forall₂ Leaves bs slots ∧
      ∀ s ∈ slots, s.Pending S K m₁ f written early maps₁ f'₁ m'₁ := by
  have mem {b : BoundPart} (hb : b ∈ bs) {d : Binding} (hd : d ∈ b.first ++ b.second) :
      d ∈ bindings bs := by
    rcases List.mem_append.1 hd with hd | hd
    · exact List.mem_append_left _ (List.mem_flatMap.2 ⟨b, hb, hd⟩)
    · exact List.mem_append_right _ (List.mem_flatMap.2 ⟨b, hb, hd⟩)
  obtain ⟨slots, h⟩ := exists_forall₂ fun b hb =>
    exists_slot bound hb ready sub same fun d hd => held d (mem hb hd)
  refine ⟨slots, h.imp fun _ _ => And.left, fun s hs => ?_⟩
  obtain ⟨_, _, _, pending⟩ := exists_rel_of_mem_right h hs
  exact pending

omit bound in
-- A slot keeps out of the way of the bindings.
theorem avoids_of_leaves {maps₁ : List (Nat × Nat)}
    (apart : (bs.map (·.share.job)).Pairwise Job.Apart)
    (avoids : ∀ b ∈ bs, b.share.job.Avoids maps)
    (others : ∀ k : Job, (∀ b ∈ bs, b.second ≠ [] → b.share.job.Apart k) → k.Avoids maps →
      k.Avoids maps₁) {b : BoundPart} {s : Slot} (mem : b ∈ bs) (left : b.Leaves s) :
    s.job.Avoids maps₁ := by
  rcases left.job with ⟨e, none⟩ | e <;> rw [e]
  · refine others _ (fun c hc bound => ?_) (avoids b mem)
    exact Job.apart_of (P := fun b : BoundPart => b.second ≠ []) (Q := fun b => b.second = [])
      apart (fun _ _ h => h) c hc b mem bound none
  · exact Job.ofRead_avoids _ _

end

section

variable (sound : S.Sound) (sub : K ⊆ N) (counted : written ⊆ K) (fresh : Fresh N bs)
  (apart : (bs.map (·.share.job)).Pairwise Job.Apart) (avoids : ∀ b ∈ bs, b.share.job.Avoids maps)
  (ready : (S.view K f f' m₁).Ready maps m') (scopes : f'.scopes ≠ [])

include sound sub counted fresh apart avoids ready scopes

-- Bindings, plain part and mutators, one after the other.
theorem statements_run
    (bound : ∀ b ∈ bs, b.toPart.Bound S K m₁ f written written maps f' m' b.first b.second)
    {fs fs₁ : Frame} {m₂ : Machine} {u : Unit} (states : States S N maps fs m₁ f' m')
    (run : Place.writePairs (bs.map write) fs m₁ = .ok (u, fs₁) m₂) :
    ∃ maps₁ f'₁ m'₁, maps ⊆ maps₁ ∧
      Step.sequence (Step.steps S.target S.call rounds
        (((Binding.captured (bindings bs)).statement? span).toList ++
          (plainStatement? span (bs.filterMap (·.plan.plain))).toList ++
          bs.filterMap (·.plan.mutator))) f' m' = .ok (.next, f'₁) m'₁ ∧
      States S N maps₁ fs₁ m₂ f'₁ m'₁ := by
  obtain ⟨ext, f'₁, m'₁, run₁, extends₁, grows, tables, held, others⟩ :=
    bindings_run rounds bound apart avoids ready.tables fresh sub scopes
  obtain ⟨ready₁, same⟩ := ready.unread extends₁ sub scopes grows
  have sub₁ := List.subset_append_right ext maps
  obtain ⟨slots, left, pending⟩ := exists_slots bound ready₁ sub₁ same held
  have keeps : ∀ s ∈ slots, s.job.Avoids (ext ++ maps) := by
    intro s hs
    obtain ⟨b, hb, left⟩ := exists_rel_of_mem_right left hs
    exact avoids_of_leaves apart avoids others hb left
  have states₁ : States S N (ext ++ maps) fs m₁ f'₁ m'₁ :=
    ⟨states.toMachines.mono sub₁ (.refl _) grows tables,
      extends₁.scopesAlike (states.scopes.mono sub₁)⟩
  obtain ⟨maps₂, f'₂, m'₂, sub₂, run₂, states₂⟩ :=
    Slot.stages_run rounds sound counted sub span pending (slots_apart left apart) keeps
      states₁ (map_write left ▸ run)
  rw [filterMap_plain left, filterMap_mutator left] at run₂
  refine ⟨maps₂, f'₂, m'₂, List.Subset.trans sub₁ sub₂, ?_, states₂⟩
  rw [List.append_assoc, Step.steps_append, Step.sequence_append_of_ok run₁]
  exact run₂

end

end

end BoundPart

end FieldAccess
