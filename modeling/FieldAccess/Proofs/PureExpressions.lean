import FieldAccess.Proofs.Allocation
import FieldAccess.Proofs.StatementScopes
import FieldAccess.Proofs.ClosedStates

namespace FieldAccess

variable {w w' : Renaming}

-- Faults that say the same on machines that hold the same.
structure TypeFault.Renamed (w : Renaming) (fault fault' : TypeFault) : Prop where
  message : ∀ {w₁ m m'}, w ≤ w₁ → m.Renamed w₁ m' → fault.message m = fault'.message m'

structure ExecFault.Renamed (w : Renaming) (fault fault' : ExecFault) : Prop where
  message : ∀ {w₁ m m'}, w ≤ w₁ → m.Renamed w₁ m' → fault.message m = fault'.message m'

-- Faults that show no value.
structure ExecFault.IsPlain (fault : ExecFault) : Prop where
  message : ∀ m m', fault.message m = fault.message m'

theorem ExecFault.IsPlain.renamed {fault : ExecFault} (h : fault.IsPlain) : fault.Renamed w fault :=
  ⟨fun _ _ => h.message _ _⟩

theorem Machine.Renamed.typeName_eq {m m' : Machine} {v v' : Value} (h : m.Renamed w m')
    (hv : v.Renamed w v') : m.typeName v = m'.typeName v' := by
  cases hv with
  | object found => simp only [typeName, (h.object found).type]
  | _ => rfl

section

variable {v v' u u' : Value}

theorem ExecFault.Renamed.noMember (hv : v.Renamed w v') (member : String) :
    ExecFault.Renamed w (.noMember v member) (.noMember v' member) where
  message le same :=
    congrArg (· ++ " has no field or method " ++ member) (same.typeName_eq (hv.mono le))

namespace TypeFault.Renamed

theorem type {fault fault' : TypeFault} (h : fault.Renamed w fault') :
    ExecFault.Renamed w (.type fault) (.type fault') where
  message le same := congrArg ("type error: " ++ ·) (h.message le same)

theorem mapKey (hv : v.Renamed w v') : TypeFault.Renamed w (.mapKey v) (.mapKey v') where
  message le same := congrArg ("invalid map key " ++ ·) (same.render_eq (hv.mono le))

theorem notIndexable (hv : v.Renamed w v') :
    TypeFault.Renamed w (.notIndexable v) (.notIndexable v') where
  message le same := congrArg ("cannot index " ++ ·) (same.render_eq (hv.mono le))

theorem operand (op : UnaryOp) (hv : v.Renamed w v') :
    TypeFault.Renamed w (.operand op v) (.operand op v') where
  message le same := congrArg ("invalid operation " ++ op.render ++ ·) (same.render_eq (hv.mono le))

theorem operands (op : BinaryOp) (hv : v.Renamed w v') (hu : u.Renamed w u') :
    TypeFault.Renamed w (.operands op v u) (.operands op v' u') where
  message le same := congrArg₂
    (fun left right => "invalid operation " ++ left ++ " " ++ op.render ++ " " ++ right)
    (same.render_eq (hv.mono le)) (same.render_eq (hu.mono le))

end TypeFault.Renamed

end

namespace Value

variable {v v' u u' : Value} {fault : ExecFault} {op : BinaryOp}

theorem Renamed.isAtom_eq (h : v.Renamed w v') : v.isAtom = v'.isAtom := by
  cases h <;> rfl

theorem divides_isPlain {a b quotient : Int64} (h : divides a b quotient = .error fault) :
    fault.IsPlain := by
  unfold divides at h
  split at h
  · cases h
    exact ⟨fun _ _ => rfl⟩
  · split at h
    · cases h
      exact ⟨fun _ _ => rfl⟩
    · cases h

theorem intOperation_isPlain {a b : Int64} (h : intOperation op a b = .error fault) :
    fault.IsPlain := by
  unfold intOperation at h
  split at h <;> first | exact divides_isPlain h | (cases h <;> exact ⟨fun _ _ => rfl⟩)

theorem floatOperation_isPlain {a b : Float} (h : floatOperation op a b = .error fault) :
    fault.IsPlain := by
  unfold floatOperation at h
  split at h <;> cases h
  exact ⟨fun _ _ => rfl⟩

theorem strOperation_isPlain {a b : String} (h : strOperation op a b = .error fault) :
    fault.IsPlain := by
  unfold strOperation at h
  split at h <;> cases h
  exact ⟨fun _ _ => rfl⟩

-- Values without parts are shown without any address.
theorem binary_renamed_of_atoms (atom : v.isAtom = true) (atom' : u.isAtom = true)
    (h : Value.binary op v u = .error fault) : fault.Renamed w fault := by
  unfold binary at h
  split at h
  · cases h
  · cases h
  · split at h
    case h_1 => exact (intOperation_isPlain h).renamed
    case h_2 | h_3 | h_4 => exact (floatOperation_isPlain h).renamed
    case h_5 => exact (strOperation_isPlain h).renamed
    case h_6 =>
      cases h
      exact (TypeFault.Renamed.operands _ (.of_isAtom atom) (.of_isAtom atom')).type

-- Values with parts can only be compared for equality.
theorem binary_of_not_atoms (heq : op ≠ .eq) (hne : op ≠ .ne)
    (parts : ¬(v.isAtom = true ∧ u.isAtom = true)) :
    Value.binary op v u = .error (.type (.operands op v u)) := by
  unfold binary
  split
  · exact absurd rfl heq
  · exact absurd rfl hne
  · split <;> first | exact absurd ⟨rfl, rfl⟩ parts | rfl

theorem Renamed.binary_fault (hv : v.Renamed w v') (hu : u.Renamed w u')
    (h : Value.binary op v u = .error fault) :
    ∃ fault', Value.binary op v' u' = .error fault' ∧ fault.Renamed w fault' := by
  by_cases atoms : v.isAtom = true ∧ u.isAtom = true
  · rw [hv.eq_of_isAtom atoms.1, hu.eq_of_isAtom atoms.2]
    exact ⟨fault, h, binary_renamed_of_atoms atoms.1 atoms.2 h⟩
  · have heq : op ≠ .eq := by
      rintro rfl
      cases h
    have hne : op ≠ .ne := by
      rintro rfl
      cases h
    rw [binary_of_not_atoms heq hne atoms] at h
    rw [hv.isAtom_eq, hu.isAtom_eq] at atoms
    cases h
    exact ⟨_, binary_of_not_atoms heq hne atoms, (TypeFault.Renamed.operands op hv hu).type⟩

theorem Renamed.unary_fault {op : UnaryOp} (hv : v.Renamed w v') (h : Value.unary op v = .error fault) :
    ∃ fault', Value.unary op v' = .error fault' ∧ fault.Renamed w fault' := by
  have shown := (TypeFault.Renamed.operand op hv).type
  unfold Value.unary at h
  split at h
  case h_4 =>
    cases hv
    split at h
    case isTrue least =>
      cases h
      exact ⟨.overflow, if_pos least, ⟨fun _ _ => rfl⟩⟩
    case isFalse => cases h
  case h_8 =>
    cases h
    refine ⟨_, ?_, shown⟩
    cases hv <;> cases op <;> first | rfl | simp_all
  all_goals cases h

end Value

namespace Exec

variable {α β γ δ : Type}

-- Whenever the one run stops with a fault, so does the other on a machine that holds the same. Then
-- the machines hold the same again, and the faults say the same.
structure FailsAlike (w : Renaming) (x : Exec α) (x' : Exec β) : Prop where
  run : ∀ {w₁ m m' fault m₁}, w ≤ w₁ → m.Renamed w₁ m' → x m = .error fault m₁ →
    ∃ w₂ fault' m'₁, w₁ ≤ w₂ ∧ x' m' = .error fault' m'₁ ∧ m₁.Renamed w₂ m'₁ ∧
      fault.message m₁ = fault'.message m'₁

namespace FailsAlike

variable {x : Exec α} {x' : Exec β} {R : Renaming → α → β → Prop}

theorem later (h : FailsAlike w x x') (le : w ≤ w') : FailsAlike w' x x' where
  run le' same run := h.run (le_trans le le') same run

-- What cannot fail fails like anything.
theorem of_succeeds (h : ∀ m fault m₁, x m ≠ .error fault m₁) : FailsAlike w x x' where
  run _ _ run := absurd run (h _ _ _)

theorem pure (a : α) : FailsAlike w (pure a) x' :=
  of_succeeds fun _ _ _ => error_pure.1

theorem get : FailsAlike w get x' :=
  of_succeeds fun _ _ _ => error_get.1

theorem ofState (y : StateM Machine α) : FailsAlike w (ofState y) x' :=
  of_succeeds fun _ _ _ => error_ofState.1

theorem fail {fault fault' : ExecFault} (h : fault.Renamed w fault') :
    FailsAlike w (fail fault : Exec α) (fail fault' : Exec β) where
  run {w₁ m m' _ _} le same run := by
    obtain ⟨rfl, rfl⟩ := error_fail.1 run
    exact ⟨w₁, fault', m', le_refl _, rfl, same, h.message le same⟩

theorem orFail {fault fault' : ExecFault} {a? : Option α} {b? : Option β}
    (present : a?.isSome = b?.isSome) (h : fault.Renamed w fault') :
    FailsAlike w (Exec.orFail fault a?) (Exec.orFail fault' b?) := by
  cases a? with
  | some a => exact pure a
  | none =>
    cases b? with
    | some b => cases present
    | none => exact fail h

theorem ofExcept {r : Except ExecFault α} {r' : Except ExecFault β}
    (h : ∀ fault, r = .error fault → ∃ fault', r' = .error fault' ∧ fault.Renamed w fault') :
    FailsAlike w (ofExcept r) (ofExcept r') := by
  cases r with
  | ok a => exact pure a
  | error fault =>
    obtain ⟨fault', rfl, same⟩ := h fault rfl
    exact fail same

-- The first parts fail, or they succeed alike and the second parts fail.
theorem bind {k : α → Exec γ} {k' : β → Exec δ} (hx : FailsAlike w x x') (copies : Copies w x x' R)
    (hk : ∀ w₁ a b, w ≤ w₁ → R w₁ a b → FailsAlike w₁ (k a) (k' b)) :
    FailsAlike w (x >>= k) (x' >>= k') where
  run le same run := by
    rcases error_bind.1 run with run₁ | ⟨a, m₁, run₁, run₂⟩
    · obtain ⟨w₂, fault', m'₁, le₂, run', same', message⟩ := hx.run le same run₁
      exact ⟨w₂, fault', m'₁, le₂, error_bind.2 (.inl run'), same', message⟩
    · obtain ⟨w₁, b, m'₁, le₁, run'₁, same₁, rel⟩ := copies.run le same run₁
      obtain ⟨w₂, fault', m'₂, le₂, run'₂, same₂, message⟩ :=
        (hk w₁ a b (le_trans le le₁) rel).run (le_refl _) same₁ run₂
      exact ⟨w₂, fault', m'₂, le_trans le₁ le₂, error_bind.2 (.inr ⟨b, m'₁, run'₁, run'₂⟩), same₂,
        message⟩

theorem ite {b : Bool} {y : Exec α} {y' : Exec β} (hx : FailsAlike w x x')
    (hy : FailsAlike w y y') :
    FailsAlike w (if b = true then x else y) (if b = true then x' else y') := by
  cases b
  · exact hy
  · exact hx

end FailsAlike

section

variable {v v' i i' : Value} {vs vs' : List Value}

theorem truth_failsAlike (h : v.Renamed w v') : FailsAlike w (truth v) (truth v') :=
  .orFail (congrArg Option.isSome h.bool?_eq) ⟨fun _ _ => rfl⟩

theorem mapKey_failsAlike (h : v.Renamed w v') : FailsAlike w (mapKey v) (mapKey v') :=
  .orFail (congrArg Option.isSome h.key?_eq) (TypeFault.Renamed.mapKey h).type

theorem itemAt_failsAlike (hs : Values.Renamed w vs vs') (hi : i.Renamed w i') :
    FailsAlike w (itemAt vs i) (itemAt vs' i') := by
  refine .bind (.orFail (congrArg Option.isSome hi.int?_eq) ⟨fun _ _ => rfl⟩) (.orFail_eq hi.int?_eq)
    fun w₁ n _ _ e => ?_
  subst e
  rw [hs.length_eq]
  refine .orFail ?_ ⟨fun _ _ => rfl⟩
  cases Value.position? n vs'.length with
  | none => rfl
  | some position => exact isSome_eq_of_rel (forall₂_getElem? hs position)

theorem item_failsAlike (h : v.Renamed w v') (hi : i.Renamed w i') :
    FailsAlike w (item v i) (item v' i') := by
  have shown := (TypeFault.Renamed.notIndexable h).type
  cases h with
  | slice items => exact itemAt_failsAlike (Value.renamedItems_iff.1 items) hi
  | map => exact .bind (mapKey_failsAlike hi) (mapKey_copies hi) fun _ _ _ _ _ =>
      .bind .get .get fun _ _ _ _ _ => .pure _
  | nil => exact .pure _
  | _ => exact .fail shown

theorem recordProperty_failsAlike (a : Nat) (name : String) :
    FailsAlike w (recordProperty a name) (recordProperty a name) := by
  unfold recordProperty
  split
  · exact .bind .get .get fun _ _ _ _ _ => .pure _
  · exact .fail (.noMember (.record a) name)

theorem select_failsAlike (h : v.Renamed w v') (member : String) :
    FailsAlike w (select v member) (select v' member) := by
  have shown := ExecFault.Renamed.noMember h member
  cases h with
  | object found =>
    refine .bind .get .get fun w₁ m m' le same => ?_
    have found' := getElem?_of_extends le.2 found
    have rel := (same.object found').fields.get? member
    rw [same.recordOf?_eq (.object found')]
    cases x : (m.object _).fields.get? member <;> cases y : (m'.object _).fields.get? member <;>
      simp only [x, y] at rel ⊢
    · cases m'.recordOf? _ with
      | none => exact .fail (.noMember (.object found') member)
      | some record => exact recordProperty_failsAlike record member
    · cases rel
    · cases rel
    · exact .pure _
  | record a => exact recordProperty_failsAlike a member
  | nil => exact .fail ⟨fun _ _ => rfl⟩
  | _ => exact .fail shown

theorem truthValue_failsAlike {x x' : Exec Value} (hx : FailsAlike w x x')
    (copies : Copies w x x' Value.Renamed) :
    FailsAlike w (do return Value.bool (← truth (← x))) (do return Value.bool (← truth (← x'))) :=
  .bind hx copies fun _ _ _ _ hv => .bind (truth_failsAlike hv) (truth_copies hv) fun _ _ _ _ _ =>
    .pure _

theorem all_failAlike {xs xs' : List (Exec Value)}
    (copies : List.Forall₂ (Copies w · · Value.Renamed) xs xs')
    (h : List.Forall₂ (FailsAlike w) xs xs') : FailsAlike w (all xs) (all xs') := by
  induction xs generalizing w xs' with
  | nil =>
    cases h
    exact .pure _
  | cons x xs ih =>
    cases h with
    | cons head tail =>
      obtain ⟨headCopies, tailCopies⟩ := List.forall₂_cons.1 copies
      refine .bind head headCopies fun w₁ _ _ le _ => ?_
      have tailCopies := tailCopies.imp fun _ _ h => h.later le
      have tail := tail.imp fun _ _ h => h.later le
      exact .bind (ih tailCopies tail) (all_copies tailCopies) fun _ _ _ _ _ => .pure _

-- Elements of literals whose keys and values succeed alike and fail alike.
structure EntryFails (w : Renaming) (e e' : LiteralEntry) : Prop extends EntryCopies w e e' where
  keyFails : FailsAlike w e.key e'.key
  valueFails : FailsAlike w e.value e'.value

theorem EntryFails.later {e e' : LiteralEntry} (h : EntryFails w e e') (le : w ≤ w') :
    EntryFails w' e e' :=
  ⟨h.toEntryCopies.later le, h.keyFails.later le, h.valueFails.later le⟩

variable {es es' : List LiteralEntry}

theorem copies_of_fail (h : List.Forall₂ (EntryFails w) es es') :
    List.Forall₂ (EntryCopies w) es es' :=
  h.imp fun _ _ h => h.toEntryCopies

theorem sliceLiteral_failsAlike (h : List.Forall₂ (EntryFails w) es es') :
    FailsAlike w (sliceLiteral es) (sliceLiteral es') := by
  have copies : List.Forall₂ (Copies w · · Value.Renamed) (es.map (·.value)) (es'.map (·.value)) := by
    rw [List.forall₂_map_left_iff, List.forall₂_map_right_iff]
    exact h.imp fun _ _ h => h.value
  have fails : List.Forall₂ (FailsAlike w) (es.map (·.value)) (es'.map (·.value)) := by
    rw [List.forall₂_map_left_iff, List.forall₂_map_right_iff]
    exact h.imp fun _ _ h => h.valueFails
  exact .bind (all_failAlike copies fails) (all_copies copies) fun _ _ _ _ _ => .pure _

theorem mapEntries_failAlike {t t' : Table MapKey} (h : List.Forall₂ (EntryFails w) es es') :
    FailsAlike w (mapEntries t es) (mapEntries t' es') := by
  induction es generalizing w t t' es' with
  | nil =>
    cases h
    exact .pure _
  | cons e es ih =>
    cases h with
    | cons head tail =>
      have written := head.written
      refine .bind (.orFail (congrArg Option.isSome written) ⟨fun _ _ => rfl⟩) (.orFail_eq written)
        fun w₁ _ _ le₁ _ => ?_
      refine .bind (head.keyFails.later le₁) (head.key.later le₁) fun w₂ _ _ le₂ hk => ?_
      refine .bind (mapKey_failsAlike hk) (mapKey_copies hk) fun w₃ _ _ le₃ _ => ?_
      have head := head.later (le_trans le₁ (le_trans le₂ le₃))
      refine .bind head.valueFails head.value fun w₄ _ _ le₄ _ => ih (tail.imp fun _ _ h => ?_)
      exact h.later (le_trans le₁ (le_trans le₂ (le_trans le₃ le₄)))

theorem structFields_failAlike {t t' : Table String} (h : List.Forall₂ (EntryFails w) es es') :
    FailsAlike w (structFields t es) (structFields t' es') := by
  induction es generalizing w t t' es' with
  | nil =>
    cases h
    exact .pure _
  | cons e es ih =>
    cases h with
    | cons head tail =>
      have name := congrArg (·.bind (·.ident?)) head.written
      refine .bind (.orFail (congrArg Option.isSome name) ⟨fun _ _ => rfl⟩) (.orFail_eq name)
        fun w₁ _ _ le₁ _ => ?_
      refine .bind (head.valueFails.later le₁) (head.value.later le₁) fun w₂ _ _ le₂ _ => ?_
      exact ih (tail.imp fun _ _ h => h.later (le_trans le₁ le₂))

end

section

variable {p : Program} {call call' : CallHandler}

mutual

theorem eval_failsAlike (calls : call.Copies call') {w : Renaming} {f f' : Frame}
    (hf : f.Renamed w f') :
    ∀ e : Expr, e.isCallFree = true → FailsAlike w (eval p call f e) (eval p call' f' e)
  | .ident _ name, _ => by
    rw [eval, eval]
    refine .bind (.bind .get .get fun _ _ _ _ _ => .pure _) (binding?_copies hf name)
      fun _ _ _ _ bound => .orFail (isSome_eq_of_rel bound) ⟨fun _ _ => rfl⟩
  | .literal _ _, _ => by
    rw [eval, eval]
    exact .pure _
  | .select _ base member, h => by
    rw [eval, eval]
    exact .bind (eval_failsAlike calls hf base h) (eval_copies calls hf base) fun _ _ _ _ hv =>
      select_failsAlike hv member
  | .call _ _ _ _, h => by cases h
  | .index _ base i, h => by
    obtain ⟨hb, hi⟩ := Bool.and_eq_true_iff.1 h
    rw [eval, eval]
    refine .bind (eval_failsAlike calls hf base hb) (eval_copies calls hf base) fun _ _ _ le hv => ?_
    have hf := hf.mono le
    exact .bind (eval_failsAlike calls hf i hi) (eval_copies calls hf i) fun _ _ _ le₂ hw =>
      item_failsAlike (hv.mono le₂) hw
  | .binary _ op left right, h => by
    obtain ⟨hl, hr⟩ := Bool.and_eq_true_iff.1 h
    have leftFails : FailsAlike w (eval p call f left) (eval p call' f' left) :=
      eval_failsAlike calls hf left hl
    have leftCopies : Copies w (eval p call f left) (eval p call' f' left) Value.Renamed :=
      eval_copies calls hf left
    by_cases hand : op = .and
    · subst hand
      rw [eval, eval]
      refine .bind leftFails leftCopies fun _ _ _ le hv => ?_
      refine .bind (truth_failsAlike hv) (truth_copies hv) fun _ b _ le₂ e => ?_
      subst e
      have hf := hf.mono (le_trans le le₂)
      exact .ite (truthValue_failsAlike (eval_failsAlike calls hf right hr)
        (eval_copies calls hf right)) (.pure _)
    · by_cases hor : op = .or
      · subst hor
        rw [eval, eval]
        refine .bind leftFails leftCopies fun _ _ _ le hv => ?_
        refine .bind (truth_failsAlike hv) (truth_copies hv) fun _ b _ le₂ e => ?_
        subst e
        have hf := hf.mono (le_trans le le₂)
        exact .ite (.pure _) (truthValue_failsAlike (eval_failsAlike calls hf right hr)
          (eval_copies calls hf right))
      · rw [eval, eval]
        · refine .bind leftFails leftCopies fun _ _ _ le ha => ?_
          have hf := hf.mono le
          refine .bind (eval_failsAlike calls hf right hr) (eval_copies calls hf right)
            fun _ _ _ le₂ hb => ?_
          exact .ofExcept fun _ => (ha.mono le₂).binary_fault hb
        all_goals assumption
  | .unary _ _ operand, h => by
    rw [eval, eval]
    exact .bind (eval_failsAlike calls hf operand h) (eval_copies calls hf operand)
      fun _ _ _ _ hv => .ofExcept fun _ => hv.unary_fault
  | .paren _ inner, h => by
    rw [eval, eval]
    exact eval_failsAlike calls hf inner h
  | .composite _ type elements, h => by
    have entries : List.Forall₂ (EntryFails w) (entries p call f elements)
      (Exec.entries p call' f' elements) := entries_failAlike calls hf elements h
    have copies := copies_of_fail entries
    unfold eval
    split
    · exact sliceLiteral_failsAlike entries
    · exact .bind (mapEntries_failAlike entries) (mapEntries_copies .empty copies)
        fun _ _ _ _ _ => .ofState _
    · refine .bind (structFields_failAlike entries) (structFields_copies ?_ copies)
        fun _ _ _ _ _ => .ofState _
      split
      · exact Table.Alike.empty.insert recordField .nil
      · exact .empty
  | .typeOperand _ _, _ => by
    rw [eval, eval]
    exact .fail ⟨fun _ _ => rfl⟩

theorem entries_failAlike (calls : call.Copies call') {w : Renaming} {f f' : Frame}
    (hf : f.Renamed w f') : ∀ elements : List Element, Expr.areCallFree elements = true →
    List.Forall₂ (EntryFails w) (entries p call f elements) (entries p call' f' elements)
  | [], _ => .nil
  | .positional value :: rest, h => by
    obtain ⟨hv, hr⟩ := Bool.and_eq_true_iff.1 h
    rw [entries, entries]
    exact .cons ⟨⟨rfl, .failType _, eval_copies calls hf value⟩, .fail ⟨fun _ _ => rfl⟩,
      eval_failsAlike calls hf value hv⟩ (entries_failAlike calls hf rest hr)
  | .keyed key value :: rest, h => by
    obtain ⟨h, hr⟩ := Bool.and_eq_true_iff.1 h
    obtain ⟨hk, hv⟩ := Bool.and_eq_true_iff.1 h
    rw [entries, entries]
    exact .cons ⟨⟨rfl, eval_copies calls hf key, eval_copies calls hf value⟩,
      eval_failsAlike calls hf key hk, eval_failsAlike calls hf value hv⟩
      (entries_failAlike calls hf rest hr)

end

end

end Exec

mutual

-- Whatever was there already is where it was.
theorem Value.Renamed.eq_of_isWithin {m : Machine} (kept : m.addresses ≤ w) :
    ∀ {v v' : Value}, v.Renamed w v' → v.isWithin m = true → v' = v
  | _, _, .nil, _ | _, _, .bool _, _ | _, _, .int _, _ | _, _, .float _, _ | _, _, .str _, _
  | _, _, .record _, _ => rfl
  | _, _, .slice items, h => congrArg Value.slice (items.eq_of_areWithin kept h)
  | _, _, .map (a := a) found, h => by
    have same := getElem?_of_extends kept.1 (getElem?_range_iff.2 ⟨of_decide_eq_true h, rfl⟩)
    exact congrArg Value.map (Option.some.inj (found.symm.trans same))
  | _, _, .object (a := a) found, h => by
    have same := getElem?_of_extends kept.2 (getElem?_range_iff.2 ⟨of_decide_eq_true h, rfl⟩)
    exact congrArg Value.object (Option.some.inj (found.symm.trans same))

theorem Value.RenamedItems.eq_of_areWithin {m : Machine} (kept : m.addresses ≤ w) :
    ∀ {vs vs' : List Value}, Value.RenamedItems w vs vs' → areWithin m vs = true → vs' = vs
  | _, _, .nil, _ => rfl
  | _, _, .cons head rest, h => by
    obtain ⟨hv, hr⟩ := Bool.and_eq_true_iff.1 h
    rw [head.eq_of_isWithin kept hv, rest.eq_of_areWithin kept hr]

end

namespace Running

variable {p : Program}

mutual

-- Without a call, nothing is asked of the handler of calls.
theorem eval_of_isCallFree (call call' : Handler) :
    ∀ e : Expr, e.isCallFree = true → eval p call e = eval p call' e
  | .ident .., _ | .literal .., _ | .typeOperand .., _ => by rw [eval, eval]
  | .select _ base _, h => by
    rw [eval, eval, eval_of_isCallFree call call' base h]
  | .call .., h => by cases h
  | .index _ base i, h => by
    obtain ⟨hb, hi⟩ := Bool.and_eq_true_iff.1 h
    rw [eval, eval, eval_of_isCallFree call call' base hb, eval_of_isCallFree call call' i hi]
  | .binary _ op left right, h => by
    obtain ⟨hl, hr⟩ := Bool.and_eq_true_iff.1 h
    have left := eval_of_isCallFree call call' left hl
    have right := eval_of_isCallFree call call' right hr
    cases op <;> simp only [eval, left, right]
  | .unary _ _ operand, h => by
    rw [eval, eval, eval_of_isCallFree call call' operand h]
  | .paren _ inner, h => by
    rw [eval, eval, eval_of_isCallFree call call' inner h]
  | .composite _ type elements, h => by
    have entries := entries_of_areCallFree call call' elements h
    unfold eval
    rw [entries]

theorem entries_of_areCallFree (call call' : Handler) : ∀ elements : List Element,
    Expr.areCallFree elements = true → entries p call elements = entries p call' elements
  | [], _ => rfl
  | .positional value :: rest, h => by
    obtain ⟨hv, hr⟩ := Bool.and_eq_true_iff.1 h
    rw [entries, entries, eval_of_isCallFree call call' value hv,
      entries_of_areCallFree call call' rest hr]
  | .keyed key value :: rest, h => by
    obtain ⟨h, hr⟩ := Bool.and_eq_true_iff.1 h
    obtain ⟨hk, hv⟩ := Bool.and_eq_true_iff.1 h
    rw [entries, entries, eval_of_isCallFree call call' key hk,
      eval_of_isCallFree call call' value hv, entries_of_areCallFree call call' rest hr]

end

-- A handler that runs nothing.
def refuse : CallHandler :=
  fun _ _ _ => Exec.fail .callDepth

theorem refuse_copies : refuse.Copies refuse :=
  fun _ _ _ _ _ _ _ => .fail _

theorem eval_leavesAsFound {e : Expr} (free : e.isCallFree = true) (call : Handler)
    (s : Interpreter) : LeavesAsFound s (eval p call e) (Exec.eval p refuse s.frame e) := by
  rw [eval_of_isCallFree call (fun g receiver args => liftM (refuse g receiver args)) e free]
  exact (eval_reads (fun _ _ _ _ => .lift _) e).leavesAsFound

-- Two runs that come to the same, but for the addresses of what is new since `m`.
inductive Repeats (m : Machine) : EStateM.Result ExecFault Interpreter Value →
    EStateM.Result ExecFault Interpreter Value → Prop
  | ok {w : Renaming} {v v' : Value} {s s' : Interpreter} (kept : m.addresses ≤ w)
      (value : v.Renamed w v') (machine : s.machine.Renamed w s'.machine) :
      Repeats m (.ok v s) (.ok v' s')
  | error {w : Renaming} {fault fault' : ExecFault} {s s' : Interpreter} (kept : m.addresses ≤ w)
      (message : fault.message s.machine = fault'.message s'.machine)
      (machine : s.machine.Renamed w s'.machine) : Repeats m (.error fault s) (.error fault' s')

theorem Repeats.closed {m : Machine} {x : Running Value} {s : Interpreter}
    {again : EStateM.Result ExecFault Interpreter Value} (h : Repeats m (x s) again) :
    (x.last s).machine.Closed := by
  rw [last]
  cases run : x s <;> rw [run] at h
  · cases h with
    | ok _ _ machine => exact machine.closed
  · cases h with
    | error _ _ machine => exact machine.closed

-- A value in which nothing is new comes again as it is.
theorem Repeats.same_value {m : Machine} {x x' : Running Value} {s s₁ s' : Interpreter} {v : Value}
    (h : Repeats m (x s) (x' s')) (run : x s = .ok v s₁) (old : v.isWithin m = true) :
    x' s' = .ok v (x'.last s') := by
  rw [last]
  cases again : x' s' <;> rw [run, again] at h
  · cases h with
    | ok kept value => rw [value.eq_of_isWithin kept old]
  · cases h

namespace LeavesAsFound

variable {s s' : Interpreter} {x x' : Running Value} {y y' : Exec Value}

theorem grows (h : LeavesAsFound s x y) (allocates : y.OnlyAllocates) :
    s.machine.Grows (x.last s).machine := by
  have outcome := h.outcome
  rw [last]
  cases run : y s.machine <;> rw [outcome, onMachine, run]
  · exact allocates.grows run
  · exact allocates.growsFailing run

theorem repeats {w : Renaming} {m : Machine} (h : LeavesAsFound s x y) (h' : LeavesAsFound s' x' y')
    (kept : m.addresses ≤ w) (same : s.machine.Renamed w s'.machine)
    (copies : y.Copies w y' Value.Renamed) (fails : y.FailsAlike w y') :
    Repeats m (x s) (x' s') := by
  rw [h.outcome, h'.outcome, onMachine, onMachine]
  dsimp only
  cases run : y s.machine with
  | ok v m₁ =>
    obtain ⟨w₁, v', m'₁, le, run', same₁, value⟩ := copies.run (le_refl _) same run
    rw [run']
    exact .ok (le_trans kept le) value same₁
  | error fault m₁ =>
    obtain ⟨w₁, fault', m'₁, le, run', same₁, message⟩ := fails.run (le_refl _) same run
    rw [run']
    exact .error (le_trans kept le) message same₁

end LeavesAsFound

-- A call-free expression asks for no function and leaves all that was there as it was, with a value or
-- with a fault. Where whatever the state refers to is there, evaluation can go on from the state that
-- it leaves, and comes to the same once more: to the very same value if nothing new is in it.
theorem evaluation_is_pure (p : Program) {e : Expr} (free : e.isCallFree = true) (call : Handler)
    (s : Interpreter) :
    let x := eval p call e
    let s' := x.last s
    (∀ call', eval p call' e = x) ∧
    s'.scopes = s.scopes ∧ s'.depth = s.depth ∧ s.machine.Grows s'.machine ∧
    (s.machine.Closed → s.frame.IsWithin s.machine →
      s'.machine.Closed ∧ Repeats s.machine (x s) (x s') ∧
      ∀ v, x s = .ok v s' → v.isWithin s.machine = true → x s' = .ok v (x.last s')) := by
  intro x s'
  have first := eval_leavesAsFound (p := p) free call s
  have second := eval_leavesAsFound (p := p) free call s'
  have grows := first.grows (Exec.eval_onlyAllocates p refuse s.frame e free)
  refine ⟨fun call' => eval_of_isCallFree call' call e free, first.scopes, first.depth, grows,
    fun closed within => ?_⟩
  have frame : s'.frame = s.frame := congrArg Frame.mk first.scopes
  rw [frame] at second
  have repeats : Repeats s.machine (x s) (x s') :=
    first.repeats second (le_refl _) (closed.renamed.grow_right grows)
      (Exec.eval_copies refuse_copies within.renamed e)
      (Exec.eval_failsAlike refuse_copies within.renamed e free)
  exact ⟨repeats.closed, repeats, fun _ => repeats.same_value⟩

-- The expression `map[string]Order{"a": o}["a"]`.
def fetched : Expr :=
  .index .nowhere
    (.composite .nowhere (.map (.named "string") (.named "Order"))
      [.keyed (.literal .nowhere (.string "a")) (.ident .nowhere "o")])
    (.literal .nowhere (.string "a"))

-- Each evaluation makes a map, and both give the object that was there.
theorem evaluation_is_pure_fetched :
    let x := eval ⟨[]⟩ (fun _ _ _ => Exec.fail .callDepth) fetched
    let s : Interpreter :=
      ⟨{ objects := #[⟨"Order", .empty⟩] }, [.ofList [("o", .object 0)]], 0, 0⟩
    let s' := x.last s
    fetched.isCallFree = true ∧ s.machine.Closed ∧ s.frame.IsWithin s.machine ∧
    x s = .ok (.object 0) s' ∧ x s' = .ok (.object 0) (x.last s') ∧
    (s'.machine.maps.size, (x.last s').machine.maps.size) = (1, 2) ∧
    s'.scopes = s.scopes ∧ s.machine.Grows s'.machine ∧ Repeats s.machine (x s) (x s') := by
  intro x s s'
  have closed : s.machine.Closed := ⟨by decide, by decide, by decide, by decide⟩
  have within : s.frame.IsWithin s.machine := by decide
  have run : x s = .ok (.object 0) s' := rfl
  obtain ⟨-, scopes, -, grows, again⟩ := evaluation_is_pure ⟨[]⟩ (e := fetched) rfl
    (fun _ _ _ => Exec.fail .callDepth) s
  obtain ⟨-, repeats, same⟩ := again closed within
  exact ⟨rfl, closed, within, run, same _ run rfl, rfl, scopes, grows, repeats⟩

end Running

end FieldAccess
