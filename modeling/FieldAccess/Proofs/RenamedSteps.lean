import FieldAccess.Eval.Call
import FieldAccess.Proofs.RenamedRuns
import FieldAccess.Proofs.PlaceSimulation

namespace FieldAccess

-- The same place, but for the addresses of objects.
inductive Place.Renamed (w : Renaming) : Place → Place → Prop
  | blank : Renamed w .blank .blank
  | named (name : String) : Renamed w (.named name) (.named name)
  | field {a b : Nat} (member : String) : w.objects[a]? = some b →
      Renamed w (.field a member) (.field b member)
  | item {c c' : Place} {i i' : Value} : Renamed w c c' → i.Renamed w i' →
      Renamed w (.item c i) (.item c' i')
  | temporary {v v' : Value} : v.Renamed w v' → Renamed w (.temporary v) (.temporary v')

inductive Flow.Renamed (w : Renaming) : Flow → Flow → Prop
  | next : Renamed w .next .next
  | breaks : Renamed w .breaks .breaks
  | continues : Renamed w .continues .continues
  | returns {vs vs' : List Value} : Values.Renamed w vs vs' → Renamed w (.returns vs) (.returns vs')

section

variable {w w' : Renaming} {f f' : Frame} {v v' : Value} {name : String}

theorem Place.Renamed.mono {place place' : Place} (h : place.Renamed w place') (le : w ≤ w') :
    place.Renamed w' place' := by
  induction h with
  | blank => exact .blank
  | named name => exact .named name
  | field member found => exact .field member (getElem?_of_extends le.2 found)
  | item _ hi ih => exact .item ih (hi.mono le)
  | temporary hv => exact .temporary (hv.mono le)

theorem Flow.Renamed.mono {flow flow' : Flow} (h : flow.Renamed w flow') (le : w ≤ w') :
    flow.Renamed w' flow' := by
  cases h with
  | next => exact .next
  | breaks => exact .breaks
  | continues => exact .continues
  | returns hs => exact .returns (Value.forall₂_mono le hs)

theorem Frame.Renamed.assign (h : f.Renamed w f') (name : String) (hv : v.Renamed w v') :
    (f.assign name v).Renamed w (f'.assign name v') := by
  obtain ⟨ss⟩ := f
  obtain ⟨ss'⟩ := f'
  simp only [Frame.Renamed, Frame.assign] at h ⊢
  induction h with
  | nil => exact .nil
  | cons head tail ih =>
    have same : Table.contains _ name = Table.contains _ name := isSome_eq_of_rel (head.get? name)
    simp only [Frame.assignIn, same]
    split
    · exact .cons (head.insert name hv) tail
    · exact .cons head ih

theorem Frame.Renamed.define (h : f.Renamed w f') (name : String) (hv : v.Renamed w v') :
    (f.define name v).Renamed w (f'.define name v') := by
  obtain ⟨ss⟩ := f
  obtain ⟨ss'⟩ := f'
  by_cases blank : name = "_"
  · simpa [Frame.define, blank] using h
  · simp only [Frame.Renamed, Frame.define, if_neg blank] at h ⊢
    cases h with
    | nil => exact .nil
    | cons head tail => exact .cons (head.insert name hv) tail

theorem Frame.Renamed.push (h : f.Renamed w f') : f.push.Renamed w f'.push :=
  .cons .empty h

theorem Frame.Renamed.pop (h : f.Renamed w f') : f.pop.Renamed w f'.pop := by
  obtain ⟨ss⟩ := f
  obtain ⟨ss'⟩ := f'
  simp only [Frame.Renamed, Frame.pop] at h ⊢
  cases h with
  | nil => exact .nil
  | cons _ tail => exact tail

end

namespace Step

variable {α β γ δ : Type}

-- Whenever the one step succeeds, so does the other where variables and machine are the same, and
-- then they are the same again.
structure Copies (w : Renaming) (x : Step α) (x' : Step β) (R : Renaming → α → β → Prop) :
    Prop where
  run : ∀ {w₁ f f' m m' a f₁ m₁}, w ≤ w₁ → f.Renamed w₁ f' → m.Renamed w₁ m' →
    x f m = .ok (a, f₁) m₁ →
    ∃ w₂ b f'₁ m'₁, w₁ ≤ w₂ ∧ x' f' m' = .ok (b, f'₁) m'₁ ∧ f₁.Renamed w₂ f'₁ ∧
      m₁.Renamed w₂ m'₁ ∧ R w₂ a b

namespace Copies

variable {w w' : Renaming} {x : Step α} {x' : Step β} {R R' : Renaming → α → β → Prop}

theorem pure {a : α} {b : β} (h : ∀ w₁, w ≤ w₁ → R w₁ a b) : Copies w (pure a) (pure b) R where
  run {w₁ f f' m m' _ _ _} le hf same run := by
    obtain ⟨rfl, rfl, rfl⟩ := ok_pure.1 run
    exact ⟨w₁, b, f', m', le_refl _, rfl, hf, same, h _ le⟩

theorem bind {k : α → Step γ} {k' : β → Step δ} {Q : Renaming → γ → δ → Prop}
    (hx : Copies w x x' R) (hk : ∀ w₁ a b, w ≤ w₁ → R w₁ a b → Copies w₁ (k a) (k' b) Q) :
    Copies w (x >>= k) (x' >>= k') Q where
  run le hf same run := by
    obtain ⟨a, f₁, m₁, run₁, run₂⟩ := ok_bind.1 run
    obtain ⟨w₁, b, f'₁, m'₁, le₁, run'₁, hf₁, same₁, rel⟩ := hx.run le hf same run₁
    obtain ⟨w₂, d, f'₂, m'₂, le₂, run'₂, hf₂, same₂, rel₂⟩ :=
      (hk w₁ a b (le_trans le le₁) rel).run (le_refl _) hf₁ same₁ run₂
    exact ⟨w₂, d, f'₂, m'₂, le_trans le₁ le₂, ok_bind.2 ⟨b, f'₁, m'₁, run'₁, run'₂⟩, hf₂, same₂,
      rel₂⟩

theorem later (h : Copies w x x' R) (le : w ≤ w') : Copies w' x x' R where
  run le' hf same run := h.run (le_trans le le') hf same run

-- What cannot succeed is copied by anything.
theorem of_fails (h : ∀ f m a f₁ m₁, x f m ≠ .ok (a, f₁) m₁) : Copies w x x' R where
  run _ _ _ run := absurd run (h _ _ _ _ _)

theorem fail (fault : ExecFault) : Copies w (Exec.fail fault) x' R :=
  of_fails fun _ _ _ _ _ h => Exec.ok_fail.1 (ok_lift.1 h).1

theorem lift {e : Exec α} {e' : Exec β} (h : Exec.Copies w e e' R) :
    Copies w (liftM e) (liftM e') R where
  run {_ _ f' _ _ _ _ _} le hf same run := by
    obtain ⟨got, rfl⟩ := ok_lift.1 run
    obtain ⟨w₂, b, m'₁, le₂, run', same', rel⟩ := h.run le same got
    exact ⟨w₂, b, f', m'₁, le₂, ok_lift.2 ⟨run', rfl⟩, hf.mono le₂, same', rel⟩

theorem reading {e : Frame → Exec α} {e' : Frame → Exec β}
    (h : ∀ {w₁ f f'}, w ≤ w₁ → f.Renamed w₁ f' → Exec.Copies w₁ (e f) (e' f') R) :
    Copies w (reading e) (reading e') R where
  run {_ _ f' _ _ _ _ _} le hf same run := by
    obtain ⟨got, rfl⟩ := ok_reading.1 run
    obtain ⟨w₂, b, m'₁, le₂, run', same', rel⟩ := (h le hf).run (le_refl _) same got
    exact ⟨w₂, b, f', m'₁, le₂, ok_reading.2 ⟨run', rfl⟩, hf.mono le₂, same', rel⟩

theorem modify {g g' : Frame → Frame}
    (h : ∀ {w₁ f f'}, w ≤ w₁ → f.Renamed w₁ f' → (g f).Renamed w₁ (g' f')) :
    Copies w (modify g) (modify g') fun _ _ _ => True where
  run {w₁ _ f' _ m' _ _ _} le hf same run := by
    obtain ⟨rfl, rfl⟩ := ok_modify.1 run
    exact ⟨w₁, (), g' f', m', le_refl _, rfl, h le hf, same, trivial⟩

theorem inScope (h : Copies w x x' R) : Copies w (inScope x) (inScope x') R where
  run le hf same run := by
    obtain ⟨f₁, got, rfl⟩ := ok_inScope.1 run
    obtain ⟨w₂, b, f'₁, m'₁, le₂, run', hf', same', rel⟩ := h.run le hf.push same got
    exact ⟨w₂, b, f'₁.pop, m'₁, le₂, ok_inScope.2 ⟨f'₁, run', rfl⟩, hf'.pop, same', rel⟩

-- Addresses may be told apart.
theorem of_apart (h : w.Apart → Copies w x x' R) : Copies w x x' R where
  run le hf same run := (h (same.apart.of_le le)).run le hf same run

theorem flow {a b : Flow} (h : a.Renamed w b) : Copies w (Pure.pure a) (Pure.pure b) Flow.Renamed :=
  pure fun _ => h.mono

-- Rounds, as long as the conditions agree.
theorem loop {cond cond' : Step Bool} {body body' post post' : Step Flow}
    (hcond : Copies w cond cond' fun _ => Eq) (hbody : Copies w body body' Flow.Renamed)
    (hpost : Copies w post post' Flow.Renamed) (rounds : Nat) :
    Copies w (loop cond body post rounds) (loop cond' body' post' rounds) Flow.Renamed := by
  induction rounds generalizing w with
  | zero => exact fail _
  | succ rounds ih =>
    rw [Step.loop, Step.loop]
    refine bind hcond fun w₁ b _ le₁ hb => ?_
    subst hb
    cases b with
    | false => exact flow .next
    | true =>
      refine bind (hbody.later le₁) fun w₂ flow₁ flow₂ le₂ hflow => ?_
      have le := le_trans le₁ le₂
      have again : Copies w₂ (do let _ ← post; Step.loop cond body post rounds)
          (do let _ ← post'; Step.loop cond' body' post' rounds) Flow.Renamed :=
        bind (hpost.later le) fun w₃ _ _ le₃ _ =>
          have le := le_trans le le₃
          ih (hcond.later le) (hbody.later le) (hpost.later le)
      cases hflow with
      | next => exact again
      | continues => exact again
      | breaks => exact flow .next
      | returns hs => exact flow (.returns hs)

-- One round for each item.
theorem forEach {round : α → Step Flow} {round' : β → Step Flow} {as : List α} {bs : List β}
    {Q : Renaming → α → β → Prop} (items : List.Forall₂ (Q w) as bs)
    (keep : ∀ {w w' a b}, w ≤ w' → Q w a b → Q w' a b)
    (h : ∀ {w₁ a b}, w ≤ w₁ → Q w₁ a b → Copies w₁ (round a) (round' b) Flow.Renamed) :
    Copies w (forEach round as) (forEach round' bs) Flow.Renamed := by
  induction as generalizing w bs with
  | nil =>
    cases items
    exact flow .next
  | cons a as ih =>
    cases items with
    | cons head tail =>
      rw [Step.forEach, Step.forEach]
      refine bind (h (le_refl _) head) fun w₁ _ _ le₁ hflow => ?_
      have again := ih (tail.imp fun _ _ => keep le₁) fun le => h (le_trans le₁ le)
      cases hflow with
      | next => exact again
      | continues => exact again
      | breaks => exact flow .next
      | returns hs => exact flow (.returns hs)

theorem sequence {xs xs' : List (Step Flow)}
    (h : List.Forall₂ (Copies w · · Flow.Renamed) xs xs') :
    Copies w (sequence xs) (sequence xs') Flow.Renamed := by
  induction xs generalizing w xs' with
  | nil =>
    cases h
    exact flow .next
  | cons x xs ih =>
    cases h with
    | cons head tail =>
      rw [Step.sequence, Step.sequence]
      refine bind head fun w₁ _ _ le₁ hflow => ?_
      cases hflow with
      | next => exact ih (tail.imp fun _ _ h => h.later le₁)
      | continues => exact flow .continues
      | breaks => exact flow .breaks
      | returns hs => exact flow (.returns hs)

end Copies

end Step

namespace Place

variable {w : Renaming} {α β : Type} {g : Access α} {g' : Access β} {R : Renaming → α → β → Prop}

-- What is done to the content of a place on the one side is done on the other.
def Access.Copies (w : Renaming) (g : Access α) (g' : Access β) (R : Renaming → α → β → Prop) :
    Prop :=
  ∀ {w₁ v v'}, w ≤ w₁ → v.Renamed w₁ v' →
    Exec.Copies w₁ (g v) (g' v') fun w₂ r r' => R w₂ r.1 r'.1 ∧ r.2.Renamed w₂ r'.2

-- Results that correspond go on to do so.
def Lasting (R : Renaming → α → β → Prop) : Prop :=
  ∀ {w w' a b}, w ≤ w' → R w a b → R w' a b

theorem Access.Copies.item (h : Access.Copies w g g' R) (lasting : Lasting R) {i i' : Value}
    (hi : i.Renamed w i') : Access.Copies w (accessItem i g) (accessItem i' g') R := by
  intro w₁ v v' le hv
  have hi := hi.mono le
  cases hv with
  | slice items =>
    have items := Value.renamedItems_iff.1 items
    refine .bind (.orFail_eq hi.int?_eq) fun w₂ n _ le₂ e => ?_
    subst e
    have items := Value.forall₂_mono le₂ items
    rw [items.length_eq]
    cases Value.position? n _ with
    | none => exact .fail _
    | some position =>
      refine .bind (h (le_trans le le₂) (.getD (forall₂_getElem? items position))) ?_
      rintro w₃ ⟨a, u⟩ ⟨b, u'⟩ le₃ ⟨rel, hu⟩
      have items := Value.forall₂_set (Value.forall₂_mono le₃ items) position hu
      exact .pure fun w₄ le₄ => ⟨lasting le₄ rel, .items (Value.forall₂_mono le₄ items)⟩
  | map found =>
    refine .bind (Exec.mapKey_copies hi) fun w₂ key _ le₂ e => ?_
    subst e
    refine .bind .get fun w₃ m m' le₃ same => ?_
    have content := (same.map (getElem?_of_extends (le_trans le₂ le₃).1 found)).get? key
    refine .bind (h (le_trans le (le_trans le₂ le₃)) (.getD content)) ?_
    rintro w₄ ⟨a, u⟩ ⟨b, u'⟩ le₄ ⟨rel, hu⟩
    have found := getElem?_of_extends (le_trans le₂ (le_trans le₃ le₄)).1 found
    refine .bind (.modify fun le₅ same => ?_) fun w₅ _ _ le₅ _ => .pure fun w₆ le₆ => ?_
    · have found := getElem?_of_extends le₅.1 found
      exact same.setMap found ((same.map found).insert key (hu.mono le₅))
    · have le := le_trans le₅ le₆
      exact ⟨lasting le rel, .map (getElem?_of_extends le.1 found)⟩
  | nil => exact .fail _
  | _ => exact .failType _

theorem accessField_copies (h : Access.Copies w g g' R) (lasting : Lasting R) {a b : Nat}
    (found : w.objects[a]? = some b) (member : String) :
    Exec.Copies w (accessField a member g) (accessField b member g') R := by
  have set {w₁ : Renaming} {m m' : Machine} {v v' : Value} (le : w ≤ w₁)
      (same : m.Renamed w₁ m') (hv : v.Renamed w₁ v') :
      (m.setField a member v).Renamed w₁ (m'.setField b member v') := by
    have found := getElem?_of_extends le.2 found
    exact same.setObject found
      ⟨(same.object found).type, (same.object found).fields.insert member hv⟩
  refine .bind .get fun w₁ m m' le₁ same => ?_
  have current := Value.Renamed.getD
    ((same.object (getElem?_of_extends le₁.2 found)).fields.get? member)
  refine .bind (.modify fun le₂ same => set (le_trans le₁ le₂) same (current.mono le₂)) ?_
  intro w₂ _ _ le₂ _
  refine .bind (h (le_trans le₁ le₂) (current.mono le₂)) ?_
  rintro w₃ ⟨r, u⟩ ⟨r', u'⟩ le₃ ⟨rel, hu⟩
  refine .bind (.modify fun le₄ same => ?_) fun w₄ _ _ le₄ _ => .pure fun _ le₅ => ?_
  · exact set (le_trans le₁ (le_trans le₂ (le_trans le₃ le₄))) same (hu.mono le₄)
  · exact lasting (le_trans le₄ le₅) rel

theorem accessName_copies (h : Access.Copies w g g' R) (name : String) :
    Step.Copies w (accessName name g) (accessName name g') R where
  run {w₁ f f' m m' a f₁ m₁} le hf same run := by
    have inFrame := hf.get? name
    have inPackage := same.globals.get? name
    rcases (ok_access_named (g := g)).1 run with ⟨v, u, hx, got, rfl⟩ |
        ⟨v, u, m₂, hx, global, got, rfl, rfl⟩
    · cases hx' : f'.get? name with
      | none => simp [hx, hx'] at inFrame
      | some v' =>
        rw [hx, hx', Option.rel_some_some] at inFrame
        obtain ⟨w₂, ⟨b, u'⟩, m'₁, le₂, got', same', rel, hu⟩ :=
          (h le inFrame).run (le_refl _) same got
        exact ⟨w₂, b, _, m'₁, le₂, ok_access_named.2 (.inl ⟨v', u', hx', got', rfl⟩),
          (hf.mono le₂).assign name hu, same', rel⟩
    · cases hx' : f'.get? name with
      | some _ => simp [hx, hx'] at inFrame
      | none =>
        cases global' : m'.globals.get? name with
        | none => simp [global, global'] at inPackage
        | some v' =>
          rw [global, global', Option.rel_some_some] at inPackage
          obtain ⟨w₂, ⟨b, u'⟩, m'₁, le₂, got', same', rel, hu⟩ :=
            (h le inPackage).run (le_refl _) same got
          exact ⟨w₂, b, f', _, le₂,
            ok_access_named.2 (.inr ⟨v', u', m'₁, hx', global', got', rfl, rfl⟩), hf.mono le₂,
            same'.setGlobal name hu, rel⟩

theorem Renamed.access {place place' : Place} (hp : place.Renamed w place')
    (h : Access.Copies w g g' R) (lasting : Lasting R) :
    Step.Copies w (place.access g) (place'.access g') R := by
  induction hp generalizing α β with
  | blank =>
    refine .bind (.lift (h (le_refl _) .nil)) ?_
    rintro w₁ ⟨a, u⟩ ⟨b, u'⟩ le ⟨rel, _⟩
    exact .pure fun _ le => lasting le rel
  | temporary hv =>
    refine .bind (.lift (h (le_refl _) hv)) ?_
    rintro w₁ ⟨a, u⟩ ⟨b, u'⟩ le ⟨rel, _⟩
    exact .pure fun _ le => lasting le rel
  | named name => exact accessName_copies h name
  | field member found => exact .lift (accessField_copies h lasting found member)
  | item _ hi ih => exact ih (h.item lasting hi) lasting

theorem Renamed.read {place place' : Place} (hp : place.Renamed w place') :
    Step.Copies w place.read place'.read Value.Renamed :=
  hp.access (fun _ hv => .pure fun _ le => ⟨hv.mono le, hv.mono le⟩) fun le h => h.mono le

theorem Renamed.write {place place' : Place} (hp : place.Renamed w place') {v v' : Value}
    (hv : v.Renamed w v') : Step.Copies w (place.write v) (place'.write v') fun _ _ _ => True :=
  hp.access (fun le _ => .pure fun _ le' => ⟨trivial, hv.mono (le_trans le le')⟩) fun _ _ => trivial

theorem resolve_copies {p : Program} {call call' : CallHandler} (calls : call.Copies call')
    {f f' : Frame} : ∀ {w : Renaming}, f.Renamed w f' → ∀ e : Expr,
    Exec.Copies w (resolve p call f e) (resolve p call' f' e) Place.Renamed
  | _, _, .ident _ name => by
    rw [resolve, resolve]
    refine .pure fun _ _ => ?_
    split
    · exact .blank
    · exact .named name
  | _, hf, .paren _ inner => by
    rw [resolve, resolve]
    exact resolve_copies calls hf inner
  | _, hf, .select _ base member => by
    rw [resolve, resolve]
    refine .bind (Exec.eval_copies calls hf base) fun w₁ v v' le hv => ?_
    cases hv with
    | object found => exact .pure fun _ le => .field member (getElem?_of_extends le.2 found)
    | _ => exact .fail _
  | _, hf, .index _ base i => by
    rw [resolve_index, resolve_index]
    refine .bind (R := Place.Renamed) ?_ fun w₁ c c' le hc => ?_
    · rw [holder, holder]
      split
      · exact resolve_copies calls hf base
      · exact .map (Exec.eval_copies calls hf base) .temporary
    · refine .bind (Exec.eval_copies calls (hf.mono le) i) fun w₂ _ _ le₂ hi => ?_
      exact .pure fun _ le₃ => .item (hc.mono (le_trans le₂ le₃)) (hi.mono le₃)
  | _, _, .literal _ _ | _, _, .binary _ _ _ _ | _, _, .unary _ _ _ | _, _, .composite _ _ _
  | _, _, .typeOperand _ _ | _, _, .call _ _ _ _ => by
    rw [resolve, resolve]
    · exact .fail _
    all_goals simp

end Place

namespace Step

section

variable {w : Renaming} {v v' : Value} {vs vs' : List Value}

theorem define_copies (name : String) (h : v.Renamed w v') :
    Copies w (define name v) (define name v') fun _ _ _ => True :=
  .modify fun le hf => hf.define name (h.mono le)

theorem defineAll_copies (names : List String) (h : Values.Renamed w vs vs') :
    Copies w (defineAll names vs) (defineAll names vs') fun _ _ _ => True := by
  induction names generalizing w vs vs' with
  | nil => exact .pure fun _ _ => trivial
  | cons name names ih =>
    cases h with
    | nil => exact .pure fun _ _ => trivial
    | cons head tail =>
      exact .bind (define_copies name head) fun _ _ _ le _ => ih (Value.forall₂_mono le tail)

theorem defineTargets_copies (targets : List Expr) (h : Values.Renamed w vs vs') :
    Copies w (defineTargets targets vs) (defineTargets targets vs') fun _ _ _ => True := by
  induction targets generalizing w vs vs' with
  | nil => exact .pure fun _ _ => trivial
  | cons target targets ih =>
    cases h with
    | nil => exact .pure fun _ _ => trivial
    | cons head tail =>
      refine .bind (.lift (.orFail_eq rfl)) fun w₁ name _ le e => ?_
      subst e
      refine .bind (define_copies name (head.mono le)) fun w₂ _ _ le₂ _ => ?_
      exact ih (Value.forall₂_mono (le_trans le le₂) tail)

theorem writeAll_copies {places places' : List Place}
    (hp : List.Forall₂ (Place.Renamed w) places places') (h : Values.Renamed w vs vs') :
    Copies w (writeAll places vs) (writeAll places' vs') fun _ _ _ => True := by
  induction places generalizing w places' vs vs' with
  | nil =>
    cases hp
    exact .pure fun _ _ => trivial
  | cons place places ih =>
    cases hp with
    | cons first rest =>
      cases h with
      | nil => exact .pure fun _ _ => trivial
      | cons head tail =>
        refine .bind (first.write head) fun w₁ _ _ le _ => ?_
        exact ih (rest.imp fun _ _ h => h.mono le) (Value.forall₂_mono le tail)

-- The items that a loop runs through.
def Rounds.Renamed (w : Renaming) : List (Value × Value) → List (Value × Value) → Prop :=
  List.Forall₂ fun r r' => r.1.Renamed w r'.1 ∧ r.2.Renamed w r'.2

theorem zipIdx_renamed (h : Values.Renamed w vs vs') (n : Nat) :
    Rounds.Renamed w ((vs.zipIdx n).map fun (item, i) => (.int (Int64.ofNat i), item))
      ((vs'.zipIdx n).map fun (item, i) => (.int (Int64.ofNat i), item)) := by
  induction h generalizing n with
  | nil => exact .nil
  | cons head _ ih => exact .cons ⟨.int _, head⟩ (ih (n + 1))

theorem itemsOf_copies (h : v.Renamed w v') :
    Exec.Copies w (itemsOf v) (itemsOf v') Rounds.Renamed := by
  cases h with
  | slice items =>
    have items := Value.renamedItems_iff.1 items
    exact .pure fun _ le => zipIdx_renamed (Value.forall₂_mono le items) 0
  | map found =>
    refine .bind .get fun w₁ m m' le same => .pure fun w₂ le₂ => ?_
    rw [Rounds.Renamed, List.forall₂_map_left_iff, List.forall₂_map_right_iff]
    refine List.Forall₂.imp ?_ (same.map (getElem?_of_extends le.1 found))
    rintro ⟨key, u⟩ ⟨_, u'⟩ ⟨rfl, hu⟩
    exact ⟨.toValue key, hu.mono le₂⟩
  | int count =>
    refine .pure fun _ _ => ?_
    rw [Rounds.Renamed, List.forall₂_map_left_iff, List.forall₂_map_right_iff]
    exact List.forall₂_same.2 fun _ _ => ⟨.int _, .nil⟩
  | nil => exact .pure fun _ _ => .nil
  | _ => exact .failType _

end

section

variable {p : Program} {call call' : CallHandler} (calls : call.Copies call') {w : Renaming}

include calls

theorem eval_copies (e : Expr) : Copies w (eval p call e) (eval p call' e) Value.Renamed :=
  .reading fun _ hf => Exec.eval_copies calls hf e

theorem evalFor_copies (count : Nat) (es : List Expr) :
    Copies w (evalFor p call count es) (evalFor p call' count es) Values.Renamed :=
  .reading fun _ hf => Exec.evalFor_copies calls hf count es

theorem check_copies (e : Expr) : Copies w (reading (Exec.check p call · e))
    (reading (Exec.check p call' · e)) fun _ => Eq :=
  .reading fun _ hf => Exec.check_copies calls hf e

theorem resolve_copies (e : Expr) : Copies w (resolve p call e) (resolve p call' e) Place.Renamed :=
  .reading fun _ hf => Place.resolve_copies calls hf e

theorem resolveAll_copies (es : List Expr) : Copies w (resolveAll p call es)
    (resolveAll p call' es) fun w₁ => List.Forall₂ (Place.Renamed w₁) := by
  induction es generalizing w with
  | nil => exact .pure fun _ _ => .nil
  | cons e es ih =>
    refine .bind (resolve_copies calls e) fun w₁ place place' le hp => ?_
    refine .bind ih fun w₂ _ _ le₂ hps => .pure fun w₃ le₃ => ?_
    exact .cons (hp.mono (le_trans le₂ le₃)) (hps.imp fun _ _ h => h.mono le₃)

theorem update_copies (op : BinaryOp) (target : Expr) {x x' : Step Value}
    (hx : Copies w x x' Value.Renamed) :
    Copies w (update p call op target x) (update p call' op target x') Flow.Renamed := by
  refine .bind (resolve_copies calls target) fun w₁ place place' le hp => ?_
  refine .bind hp.read fun w₂ _ _ le₂ hc => ?_
  refine .bind (hx.later (le_trans le le₂)) fun w₃ _ _ le₃ hv => ?_
  refine .bind (.lift (Exec.binary_copies (hc.mono le₃) hv)) fun w₄ _ _ le₄ hr => ?_
  exact .bind ((hp.mono (le_trans le₂ (le_trans le₃ le₄))).write hr) fun _ _ _ _ _ => .flow .next

theorem assign_copies (targets : List Expr) (op : AssignOp) (values : List Expr) :
    Copies w (assign p call targets op values) (assign p call' targets op values) Flow.Renamed := by
  unfold assign
  split
  · exact update_copies calls _ _ (eval_copies calls _)
  · exact .fail _
  · exact .fail _
  · refine .bind (evalFor_copies calls _ _) fun _ _ _ _ hs => ?_
    exact .bind (defineTargets_copies _ hs) fun _ _ _ _ _ => .flow .next
  · refine .bind (resolveAll_copies calls _) fun w₁ _ _ le hp => ?_
    refine .bind (evalFor_copies calls _ _) fun w₂ _ _ le₂ hs => ?_
    exact .bind (writeAll_copies (hp.imp fun _ _ h => h.mono le₂) hs) fun _ _ _ _ _ => .flow .next

theorem declare_copies (names : List String) (type : Option TypeExpr) (values : List Expr) :
    Copies w (declare p call names type values) (declare p call' names type values)
      Flow.Renamed := by
  have zeros : Values.Renamed w (List.replicate names.length (type.elim .nil p.zero))
      (List.replicate names.length (type.elim .nil p.zero)) := by
    refine List.forall₂_same.2 fun _ hv => ?_
    rw [List.eq_of_mem_replicate hv]
    cases type with
    | none => exact .nil
    | some type => exact Exec.zero_renamed type
  unfold declare
  split
  · refine .bind (.pure fun _ le => Value.forall₂_mono le zeros) fun _ _ _ _ hs => ?_
    exact .bind (defineAll_copies names hs) fun _ _ _ _ _ => .flow .next
  · refine .bind (evalFor_copies calls _ _) fun _ _ _ _ hs => ?_
    exact .bind (defineAll_copies names hs) fun _ _ _ _ _ => .flow .next

theorem bindItem_copies (define : Bool) {v v' : Value} (h : v.Renamed w v') (target : Option Expr) :
    Copies w (bindItem p call define v target) (bindItem p call' define v' target)
      fun _ _ _ => True := by
  unfold bindItem
  split
  · exact .pure fun _ _ => trivial
  · split
    · exact define_copies _ h
    · exact .bind (resolve_copies calls _) fun _ _ _ le hp => hp.write (h.mono le)

theorem matchesTag_copies {tag tag' : Value} (h : tag.Renamed w tag') (es : List Expr) :
    Copies w (matchesTag p call tag es) (matchesTag p call' tag' es) fun _ => Eq := by
  induction es generalizing w with
  | nil => exact .pure fun _ _ => rfl
  | cons e es ih =>
    refine .bind (eval_copies calls e) fun w₁ v v' le hv => .of_apart fun apart => ?_
    rw [hv.equal_eq apart (h.mono le)]
    split
    · exact .pure fun _ _ => rfl
    · exact ih (h.mono le)

theorem chooseCase_copies {tag tag' : Value} (h : tag.Renamed w tag') {cases cases' : List Case}
    (same : cases.map (·.values) = cases'.map (·.values)) :
    Copies w (chooseCase p call tag cases) (chooseCase p call' tag' cases') fun _ => Eq := by
  have default : cases.findIdx? (·.values.isEmpty) = cases'.findIdx? (·.values.isEmpty) := by
    have := congrArg (List.findIdx? List.isEmpty) same
    rwa [List.findIdx?_map, List.findIdx?_map] at this
  have go : ∀ (rest rest' : List Case) (position : Nat) {w : Renaming}, tag.Renamed w tag' →
      rest.map (·.values) = rest'.map (·.values) →
      Copies w (chooseCase.go p call tag cases position rest)
        (chooseCase.go p call' tag' cases' position rest') fun _ => Eq := by
    intro rest
    induction rest with
    | nil =>
      intro rest' position w _ same
      obtain rfl := List.map_eq_nil_iff.1 same.symm
      rw [chooseCase.go, chooseCase.go, default]
      exact .pure fun _ _ => rfl
    | cons c rest ih =>
      intro rest' position w h same
      obtain ⟨c', rest', rfl, hc, same⟩ := List.map_eq_cons_iff.1 same.symm
      have hc : c'.values = c.values := hc
      rw [chooseCase.go, chooseCase.go, hc]
      refine .bind (matchesTag_copies calls h _) fun w₁ b _ le e => ?_
      subst e
      cases b with
      | true => exact .pure fun _ _ => rfl
      | false => exact ih rest' (position + 1) (h.mono le) same.symm
  exact go cases cases' 0 h same

end

end Step

end FieldAccess
