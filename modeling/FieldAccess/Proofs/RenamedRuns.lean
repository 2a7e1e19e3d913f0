import FieldAccess.Eval.Expr
import FieldAccess.Proofs.Alike
import FieldAccess.Proofs.Renaming
import FieldAccess.Proofs.Runs

namespace FieldAccess

abbrev Frame.Renamed (w : Renaming) (f f' : Frame) : Prop :=
  List.Forall₂ (Table.Alike (Value.Renamed w)) f.scopes f'.scopes

abbrev Values.Renamed (w : Renaming) : List Value → List Value → Prop :=
  List.Forall₂ (Value.Renamed w)

section

variable {w w' : Renaming} {f f' : Frame}

theorem Frame.Renamed.mono (h : f.Renamed w f') (le : w ≤ w') : f.Renamed w' f' :=
  List.Forall₂.imp (fun _ _ h => h.rename le) h

theorem Frame.Renamed.get? (h : f.Renamed w f') (name : String) :
    Option.Rel (Value.Renamed w) (f.get? name) (f'.get? name) := by
  obtain ⟨ss⟩ := f
  obtain ⟨ss'⟩ := f'
  simp only [Frame.Renamed, Frame.get?] at h ⊢
  induction h with
  | nil => exact .none
  | cons head _ ih =>
    have rel := head.get? name
    simp only [List.findSome?_cons]
    cases x : Table.get? _ name <;> cases y : Table.get? _ name <;> simp only [x, y] at rel ⊢ <;>
      first | exact ih | exact rel | cases rel

end

namespace Exec

variable {α β γ δ : Type}

-- Whenever the one run succeeds, so does the other on a machine that holds the same, and then the
-- machines hold the same again.
structure Copies (w : Renaming) (x : Exec α) (x' : Exec β) (R : Renaming → α → β → Prop) :
    Prop where
  run : ∀ {w₁ m m' a m₁}, w ≤ w₁ → m.Renamed w₁ m' → x m = .ok a m₁ →
    ∃ w₂ b m'₁, w₁ ≤ w₂ ∧ x' m' = .ok b m'₁ ∧ m₁.Renamed w₂ m'₁ ∧ R w₂ a b

namespace Copies

variable {w w' : Renaming} {x : Exec α} {x' : Exec β} {R : Renaming → α → β → Prop}

theorem pure {a : α} {b : β} (h : ∀ w₁, w ≤ w₁ → R w₁ a b) : Copies w (pure a) (pure b) R where
  run {w₁ m m' _ _} le same run := by
    obtain ⟨rfl, rfl⟩ := ok_pure.1 run
    exact ⟨w₁, b, m', le_refl _, rfl, same, h _ le⟩

theorem bind {k : α → Exec γ} {k' : β → Exec δ} {Q : Renaming → γ → δ → Prop}
    (hx : Copies w x x' R) (hk : ∀ w₁ a b, w ≤ w₁ → R w₁ a b → Copies w₁ (k a) (k' b) Q) :
    Copies w (x >>= k) (x' >>= k') Q where
  run le same run := by
    obtain ⟨a, m₁, run₁, run₂⟩ := ok_bind.1 run
    obtain ⟨w₁, b, m'₁, le₁, run'₁, same₁, rel⟩ := hx.run le same run₁
    obtain ⟨w₂, d, m'₂, le₂, run'₂, same₂, rel₂⟩ :=
      (hk w₁ a b (le_trans le le₁) rel).run (le_refl _) same₁ run₂
    exact ⟨w₂, d, m'₂, le_trans le₁ le₂, ok_bind.2 ⟨b, m'₁, run'₁, run'₂⟩, same₂, rel₂⟩

theorem map {φ : α → γ} {φ' : β → δ} {Q : Renaming → γ → δ → Prop} (hx : Copies w x x' R)
    (h : ∀ {w a b}, R w a b → Q w (φ a) (φ' b)) : Copies w (φ <$> x) (φ' <$> x') Q where
  run le same run := by
    obtain ⟨a, got, rfl⟩ := ok_map.1 run
    obtain ⟨w₁, b, m'₁, le₁, got', same₁, rel⟩ := hx.run le same got
    exact ⟨w₁, φ' b, m'₁, le₁, ok_map.2 ⟨b, got', rfl⟩, same₁, h rel⟩

theorem later (h : Copies w x x' R) (le : w ≤ w') : Copies w' x x' R where
  run le' same run := h.run (le_trans le le') same run

-- What cannot succeed is copied by anything.
theorem of_fails (h : ∀ m a m₁, x m ≠ .ok a m₁) : Copies w x x' R where
  run _ _ run := absurd run (h _ _ _)

theorem fail (fault : ExecFault) : Copies w (fail fault) x' R :=
  of_fails fun _ _ _ h => ok_fail.1 h

theorem failType (fault : TypeFault) : Copies w (failType fault) x' R :=
  fail _

theorem orFail {fault fault' : ExecFault} {a? : Option α} {b? : Option β}
    (h : ∀ w₁, w ≤ w₁ → Option.Rel (R w₁) a? b?) :
    Copies w (Exec.orFail fault a?) (Exec.orFail fault' b?) R := by
  cases a? with
  | none => exact of_fails fun _ _ _ h => by simp [ok_orFail] at h
  | some a =>
    cases b? with
    | none => cases h w (le_refl _)
    | some b => exact pure fun w₁ le => Option.rel_some_some.1 (h w₁ le)

-- What is the same on both sides is there on both or on neither.
theorem orFail_eq {fault fault' : ExecFault} {a? b? : Option α} (h : a? = b?) :
    Copies w (Exec.orFail fault a?) (Exec.orFail fault' b?) fun _ => Eq := by
  subst h
  cases a? with
  | none => exact of_fails fun _ _ _ h => by simp [ok_orFail] at h
  | some a => exact pure fun _ _ => rfl

theorem ofExcept {r : Except ExecFault α} {r' : Except ExecFault β}
    (h : ∀ a, r = .ok a → ∃ b, r' = .ok b ∧ ∀ w₁, w ≤ w₁ → R w₁ a b) :
    Copies w (ofExcept r) (ofExcept r') R := by
  cases r with
  | error fault => exact of_fails fun _ _ _ h => by simp [ok_ofExcept] at h
  | ok a =>
    obtain ⟨b, rfl, rel⟩ := h a rfl
    exact pure rel

theorem get : Copies w get get fun w₁ m m' => m.Renamed w₁ m' where
  run {w₁ m m' _ _} _ same run := by
    obtain ⟨rfl, rfl⟩ := ok_get.1 run
    exact ⟨w₁, m', m', le_refl _, rfl, same, same⟩

theorem modify {g g' : Machine → Machine}
    (h : ∀ {w₁ m m'}, w ≤ w₁ → m.Renamed w₁ m' → (g m).Renamed w₁ (g' m')) :
    Copies w (modify g) (modify g') fun _ _ _ => True where
  run {w₁ m m' _ _} le same run := by
    obtain rfl := ok_modify.1 run
    exact ⟨w₁, (), g' m', le_refl _, rfl, h le same, trivial⟩

theorem allocMap {t t' : Table MapKey} (h : Table.Alike (Value.Renamed w) t t') :
    Copies w (ofState (Machine.allocMap t)) (ofState (Machine.allocMap t')) Value.Renamed where
  run {w₁ m m' _ _} le same run := by
    obtain ⟨rfl, rfl⟩ := Prod.mk.inj (ok_ofState.1 run)
    obtain ⟨w₂, le₂, same₂, rel⟩ := same.allocMap (h.rename le)
    exact ⟨w₂, _, _, le₂, ok_ofState.2 rfl, same₂, rel⟩

theorem allocObject {o o' : Object} (h : o.Renamed w o') :
    Copies w (ofState (Machine.allocObject o)) (ofState (Machine.allocObject o'))
      Value.Renamed where
  run {w₁ m m' _ _} le same run := by
    obtain ⟨rfl, rfl⟩ := Prod.mk.inj (ok_ofState.1 run)
    obtain ⟨w₂, le₂, same₂, rel⟩ := same.allocObject (h.mono le)
    exact ⟨w₂, _, _, le₂, ok_ofState.2 rfl, same₂, rel⟩

theorem value {v v' : Value} (h : v.Renamed w v') :
    Copies w (Pure.pure v) (Pure.pure v') Value.Renamed :=
  pure fun _ => h.mono

theorem values {vs vs' : List Value} (h : Values.Renamed w vs vs') :
    Copies w (Pure.pure vs) (Pure.pure vs') Values.Renamed :=
  pure fun _ le => Value.forall₂_mono le h

theorem one {v v' : Value} (h : v.Renamed w v') :
    Copies w (Pure.pure [v]) (Pure.pure [v']) Values.Renamed :=
  values (.cons h .nil)

-- A condition that both sides share.
theorem ite {b : Bool} {y : Exec α} {y' : Exec β} (hx : Copies w x x' R) (hy : Copies w y y' R) :
    Copies w (if b = true then x else y) (if b = true then x' else y') R := by
  cases b
  · exact hy
  · exact hx

end Copies

section

variable {w : Renaming} {v v' i i' : Value} {vs vs' : List Value}

theorem oneResult_copies (h : Values.Renamed w vs vs') :
    Copies w (oneResult vs) (oneResult vs') Value.Renamed := by
  cases h with
  | nil => exact .failType _
  | cons head rest =>
    cases rest with
    | nil => exact .value head
    | cons => exact .failType _

theorem truth_copies (h : v.Renamed w v') : Copies w (truth v) (truth v') fun _ => Eq :=
  .orFail_eq h.bool?_eq

theorem mapKey_copies (h : v.Renamed w v') : Copies w (mapKey v) (mapKey v') fun _ => Eq :=
  .orFail_eq h.key?_eq

theorem itemAt_copies (hs : Values.Renamed w vs vs') (hi : i.Renamed w i') :
    Copies w (itemAt vs i) (itemAt vs' i') Value.Renamed := by
  refine .bind (.orFail_eq hi.int?_eq) fun w₁ n _ le e => ?_
  subst e
  rw [hs.length_eq]
  refine .orFail fun w₂ le₂ => ?_
  cases Value.position? n vs'.length with
  | none => exact .none
  | some position => exact forall₂_getElem? (Value.forall₂_mono (le_trans le le₂) hs) position

theorem item_copies (h : v.Renamed w v') (hi : i.Renamed w i') :
    Copies w (item v i) (item v' i') Value.Renamed := by
  cases h with
  | slice items => exact itemAt_copies (Value.renamedItems_iff.1 items) hi
  | map found =>
    refine .bind (mapKey_copies hi) fun w₁ key _ le e => ?_
    subst e
    refine .bind .get fun w₂ m m' le₂ same => .value (.getD ?_)
    exact (same.map (getElem?_of_extends (le_trans le le₂).1 found)).get? key
  | nil => exact .value .nil
  | _ => exact .failType _

theorem itemAndPresence_copies (h : v.Renamed w v') (hi : i.Renamed w i') :
    Copies w (itemAndPresence v i) (itemAndPresence v' i') Values.Renamed := by
  cases h with
  | map found =>
    refine .bind (mapKey_copies hi) fun w₁ key _ le e => ?_
    subst e
    refine .bind .get fun w₂ m m' le₂ same => ?_
    have rel := (same.map (getElem?_of_extends (le_trans le le₂).1 found)).get? key
    dsimp only
    rw [isSome_eq_of_rel rel]
    exact .values (.cons (.getD rel) (.cons (.bool _) .nil))
  | slice items => exact .bind (item_copies (.slice items) hi) fun _ _ _ _ => .one
  | nil => exact .bind (item_copies .nil hi) fun _ _ _ _ => .one
  | _ => exact .bind (.failType _) fun _ _ _ _ (h : False) => h.elim

theorem recordProperty_copies (a : Nat) (name : String) :
    Copies w (recordProperty a name) (recordProperty a name) Value.Renamed := by
  unfold recordProperty
  split
  · refine .bind .get fun _ m m' _ same => ?_
    rw [(same.record a).id]
    exact .value (.str _)
  · exact .fail _

theorem select_copies (h : v.Renamed w v') (member : String) :
    Copies w (select v member) (select v' member) Value.Renamed := by
  cases h with
  | object found =>
    refine .bind .get fun w₁ m m' le same => ?_
    have found := getElem?_of_extends le.2 found
    have rel := (same.object found).fields.get? member
    rw [same.recordOf?_eq (.object found)]
    cases x : (m.object _).fields.get? member <;> cases y : (m'.object _).fields.get? member <;>
      simp only [x, y] at rel ⊢
    · cases m'.recordOf? _ with
      | none => exact .fail _
      | some record => exact recordProperty_copies record member
    · cases rel
    · cases rel
    · exact .value (Option.rel_some_some.1 rel)
  | record a => exact recordProperty_copies a member
  | _ => exact .fail _

theorem all_copies {xs xs' : List (Exec Value)}
    (h : List.Forall₂ (Copies w · · Value.Renamed) xs xs') :
    Copies w (all xs) (all xs') Values.Renamed := by
  induction xs generalizing w xs' with
  | nil =>
    cases h
    exact .values .nil
  | cons x xs ih =>
    cases h with
    | cons head tail =>
      refine .bind head fun w₁ v v' le hv => ?_
      have rest := ih (tail.imp fun _ _ h => h.later le)
      exact .bind rest fun _ _ _ le₁ hs => .values (.cons (hv.mono le₁) hs)

theorem length_copies (h : v.Renamed w v') : Copies w (length v) (length v') Value.Renamed := by
  cases h with
  | slice items =>
    rw [length, length, (Value.renamedItems_iff.1 items).length_eq]
    exact .value (.int _)
  | map found =>
    refine .bind .get fun _ m m' le same => ?_
    rw [Table.size, Table.size, (same.map (getElem?_of_extends le.1 found)).length_eq]
    exact .value (.int _)
  | str | nil => exact .value (.int _)
  | _ => exact .failType _

theorem convert_copies (type : String) (h : v.Renamed w v') :
    Copies w (ofExcept (Value.convert type v)) (ofExcept (Value.convert type v')) Value.Renamed :=
  .ofExcept fun a ha =>
    have ⟨same, atom⟩ := h.convert ha
    ⟨a, same, fun _ _ => .of_isAtom atom⟩

theorem unary_copies (op : UnaryOp) (h : v.Renamed w v') :
    Copies w (ofExcept (Value.unary op v)) (ofExcept (Value.unary op v')) Value.Renamed :=
  .ofExcept fun _ ha =>
    have ⟨b, hb, rel⟩ := h.unary ha
    ⟨b, hb, fun _ => rel.mono⟩

theorem binary_copies {op : BinaryOp} {u u' : Value} (h : v.Renamed w v') (hu : u.Renamed w u') :
    Copies w (ofExcept (Value.binary op v u)) (ofExcept (Value.binary op v' u')) Value.Renamed where
  run {w₁ _ m' _ _} le same run := by
    obtain ⟨got, rfl⟩ := ok_ofExcept.1 run
    obtain ⟨got', atom⟩ := (h.mono le).binary same.apart (hu.mono le) got
    exact ⟨w₁, _, m', le_refl _, ok_ofExcept.2 ⟨got', rfl⟩, same, .of_isAtom atom⟩

theorem appendable_copies (h : v.Renamed w v') :
    Copies w (appendable v) (appendable v') Values.Renamed := by
  cases h with
  | slice items => exact .values (Value.renamedItems_iff.1 items)
  | nil => exact .values .nil
  | _ => exact .failType _

-- Elements of literals with keys and values that are copied.
structure EntryCopies (w : Renaming) (e e' : LiteralEntry) : Prop where
  written : e.written = e'.written
  key : Exec.Copies w e.key e'.key Value.Renamed
  value : Exec.Copies w e.value e'.value Value.Renamed

theorem EntryCopies.later {w w' : Renaming} {e e' : LiteralEntry} (h : EntryCopies w e e')
    (le : w ≤ w') : EntryCopies w' e e' :=
  ⟨h.written, h.key.later le, h.value.later le⟩

variable {es es' : List LiteralEntry}

theorem sliceLiteral_copies (h : List.Forall₂ (EntryCopies w) es es') :
    Copies w (sliceLiteral es) (sliceLiteral es') Value.Renamed := by
  refine .bind (all_copies ?_) fun _ _ _ _ hs => .value (.items hs)
  rw [List.forall₂_map_left_iff, List.forall₂_map_right_iff]
  exact h.imp fun _ _ h => h.value

theorem mapEntries_copies {t t' : Table MapKey} (ht : Table.Alike (Value.Renamed w) t t')
    (h : List.Forall₂ (EntryCopies w) es es') :
    Copies w (mapEntries t es) (mapEntries t' es') fun w₁ => Table.Alike (Value.Renamed w₁) := by
  induction es generalizing w t t' es' with
  | nil =>
    cases h
    exact .pure fun _ => ht.rename
  | cons e es ih =>
    cases h with
    | cons head tail =>
      refine .bind (.orFail_eq head.written) fun w₁ _ _ le₁ _ => ?_
      refine .bind (head.key.later le₁) fun w₂ k k' le₂ hk => ?_
      refine .bind (mapKey_copies hk) fun w₃ key _ le₃ e => ?_
      subst e
      have le := le_trans le₁ (le_trans le₂ le₃)
      refine .bind (head.value.later le) fun w₄ v v' le₄ hv => ?_
      have le := le_trans le le₄
      exact ih ((ht.rename le).insert key hv) (tail.imp fun _ _ h => h.later le)

theorem mapLiteral_copies (h : List.Forall₂ (EntryCopies w) es es') :
    Copies w (mapLiteral es) (mapLiteral es') Value.Renamed :=
  .bind (mapEntries_copies .empty h) fun _ _ _ _ => .allocMap

theorem structFields_copies {t t' : Table String} (ht : Table.Alike (Value.Renamed w) t t')
    (h : List.Forall₂ (EntryCopies w) es es') :
    Copies w (structFields t es) (structFields t' es')
      fun w₁ => Table.Alike (Value.Renamed w₁) := by
  induction es generalizing w t t' es' with
  | nil =>
    cases h
    exact .pure fun _ => ht.rename
  | cons e es ih =>
    cases h with
    | cons head tail =>
      refine .bind (.orFail_eq (by rw [head.written])) fun w₁ name _ le₁ e => ?_
      subst e
      refine .bind (head.value.later le₁) fun w₂ v v' le₂ hv => ?_
      have le := le_trans le₁ le₂
      exact ih ((ht.rename le).insert name hv) (tail.imp fun _ _ h => h.later le)

theorem structLiteral_copies (p : Program) (type : TypeExpr)
    (h : List.Forall₂ (EntryCopies w) es es') :
    Copies w (structLiteral p type es) (structLiteral p type es') Value.Renamed := by
  refine .bind (structFields_copies ?_ h) fun _ _ _ _ ht => .allocObject ⟨rfl, ht⟩
  split
  · exact Table.Alike.empty.insert recordField .nil
  · exact .empty

theorem literalValue_renamed (l : Literal) : (literalValue l).Renamed w (literalValue l) := by
  cases l <;> constructor

end

section

variable {w : Renaming} {m m' : Machine} {v v' : Value}

theorem text_eq (same : m.Renamed w m') (h : v.Renamed w v') :
    Record.text m v = Record.text m' v' := by
  have shown := same.render_eq h
  cases h <;> first | rfl | exact shown

theorem integer_eq (h : v.Renamed w v') : Record.integer v = Record.integer v' := by
  cases h <;> rfl

theorem float_eq (h : v.Renamed w v') : Record.float v = Record.float v' := by
  cases h <;> rfl

theorem texts_renamed (h : v.Renamed w v') :
    Values.Renamed w (Record.texts v) (Record.texts v') := by
  cases h with
  | slice items => exact Value.renamedItems_iff.1 items
  | str text =>
    simp only [Record.texts]
    split
    · exact .nil
    · exact .cons (.str text) .nil
  | _ => exact .nil

theorem expandedOne_renamed {x x' : Option Value} (h : Option.Rel (Value.Renamed w) x x') :
    (Record.expandedOne x).Renamed w (Record.expandedOne x') := by
  cases h with
  | none => exact .nil
  | some h =>
    cases h with
    | record a => exact .record a
    | slice items => exact .getD (Value.rel_head? (Value.renamedItems_iff.1 items))
    | _ => exact .nil

theorem expandedAll_renamed {x x' : Option Value} (h : Option.Rel (Value.Renamed w) x x') :
    Values.Renamed w (Record.expandedAll x) (Record.expandedAll x') := by
  cases h with
  | none => exact .nil
  | some h =>
    cases h with
    | record a => exact .cons (.record a) .nil
    | slice items => exact Value.renamedItems_iff.1 items
    | _ => exact .nil

theorem record_get?_renamed (same : m.Renamed w m') {r r' : Record} (hr : r.Renamed w r')
    (name key : String) :
    Option.Rel (Value.Renamed w) (Record.get? m r name key) (Record.get? m' r' name key) := by
  have stored := Value.Renamed.getD (hr.data.get? key)
  have expanded := hr.expand.get? key
  unfold Record.get?
  dsimp only
  split
  · exact .some stored
  · exact .some stored
  · exact .some stored
  · rw [text_eq same stored]
    exact .some (.str _)
  · rw [integer_eq stored]
    exact .some (.int _)
  · rw [float_eq stored]
    exact .some (.float _)
  · rw [stored.bool?_eq]
    exact .some (.bool _)
  · exact .some (.items (texts_renamed stored))
  · exact .some (expandedOne_renamed expanded)
  · exact .some (.items (expandedAll_renamed expanded))
  · exact .none

theorem expansionMap_renamed {r r' : Record} (hr : r.Renamed w r') :
    Table.Alike (Value.Renamed w) r.expansionMap r'.expansionMap := by
  unfold Table.Alike Record.expansionMap
  rw [List.forall₂_map_left_iff, List.forall₂_map_right_iff]
  exact List.Forall₂.imp (fun _ _ h => ⟨congrArg MapKey.str h.1, h.2⟩) hr.expand

theorem insertAll_alike {κ : Type} [DecidableEq κ] {t t' : Table κ} {es es' : List (κ × Value)}
    (ht : Table.Alike (Value.Renamed w) t t')
    (h : List.Forall₂ (fun e e' => e.1 = e'.1 ∧ Value.Renamed w e.2 e'.2) es es') :
    Table.Alike (Value.Renamed w) (es.foldl (fun t (key, v) => t.insert key v) t)
      (es'.foldl (fun t (key, v) => t.insert key v) t') := by
  induction h generalizing t t' with
  | nil => exact ht
  | @cons e e' _ _ head _ ih =>
    simp only [List.foldl_cons, head.1]
    exact ih (ht.insert e'.1 head.2)

theorem ofList_alike {κ : Type} [DecidableEq κ] {es es' : List (κ × Value)}
    (h : List.Forall₂ (fun e e' => e.1 = e'.1 ∧ Value.Renamed w e.2 e'.2) es es') :
    Table.Alike (Value.Renamed w) (.ofList es) (.ofList es') :=
  insertAll_alike .empty h

theorem expansionOf_renamed {t t' : Table MapKey} (ht : Table.Alike (Value.Renamed w) t t') :
    Table.Alike (Value.Renamed w) (Record.expansionOf t) (Record.expansionOf t') := by
  refine ofList_alike (List.rel_filterMap (fun e e' h => ?_) ht)
  obtain ⟨key, v⟩ := e
  obtain ⟨key', v'⟩ := e'
  obtain ⟨rfl, hv⟩ : key = key' ∧ Value.Renamed w v v' := h
  cases key with
  | str text => exact .some ⟨rfl, hv⟩
  | _ => exact .none

end

section

variable {w : Renaming} {as as' : List Value}

theorem textArgument_copies (h : Values.Renamed w as as') (position : Nat) :
    Copies w (textArgument as position) (textArgument as' position) fun _ => Eq := by
  refine .orFail_eq ?_
  have rel := forall₂_getElem? h position
  cases x : as[position]? <;> cases y : as'[position]? <;> simp only [x, y] at rel ⊢
  · cases rel
  · cases rel
  · exact (Option.rel_some_some.1 rel).str?_eq

-- What the last argument of a setter of expansions stands for.
theorem lastExpansion_renamed {m m' : Machine} (same : m.Renamed w m')
    (h : Values.Renamed w as as') :
    Table.Alike (Value.Renamed w)
      (match as.getLast? with
        | some (.map a) => Record.expansionOf (m.map a)
        | _ => .empty)
      (match as'.getLast? with
        | some (.map a) => Record.expansionOf (m'.map a)
        | _ => .empty) := by
  have rel := Value.rel_getLast? h
  cases x : as.getLast? <;> cases y : as'.getLast? <;> simp only [x, y] at rel ⊢
  · exact .empty
  · cases rel
  · cases rel
  · cases Option.rel_some_some.1 rel with
    | map found => exact expansionOf_renamed (same.map found)
    | _ => exact .empty

theorem expansion_copies (a : Nat) :
    Copies w (modifyGet fun m => Machine.allocMap (m.record a).expansionMap m)
      (modifyGet fun m => Machine.allocMap (m.record a).expansionMap m) Value.Renamed where
  run {_ m m' _ _} le same run := by
    have expansion := expansionMap_renamed (same.record a)
    exact (Copies.allocMap expansion).run (le_refl _) same run

theorem recordMethod_copies (a : Nat) (name : String) (h : Values.Renamed w as as') :
    Copies w (recordMethod a name as) (recordMethod a name as') Values.Renamed := by
  unfold recordMethod
  have set : Copies w
      (do
        let key ← textArgument as 0
        let v := as.getLast?.getD .nil
        modify fun m =>
          let r := m.record a
          m.setRecord a { r with data := r.data.insert key v }
        return [])
      (do
        let key ← textArgument as' 0
        let v := as'.getLast?.getD .nil
        modify fun m =>
          let r := m.record a
          m.setRecord a { r with data := r.data.insert key v }
        return []) Values.Renamed := by
    refine .bind (textArgument_copies h 0) fun w₁ key _ le e => ?_
    subst e
    have hv := Value.Renamed.getD (Value.rel_getLast? (Value.forall₂_mono le h))
    refine .bind (.modify fun le₁ same => same.setRecord ?_) fun _ _ _ _ _ => .values .nil
    exact { same.record a with data := (same.record a).data.insert key (hv.mono le₁) }
  split
  · exact set
  · exact set
  · refine .bind (.modify fun {w₁ m m'} le same => same.setRecord ?_) fun _ _ _ _ _ => .values .nil
    exact {
      same.record a with expand := lastExpansion_renamed same (Value.forall₂_mono le h) }
  · exact .bind (expansion_copies a) fun _ _ _ _ => .one
  · refine .bind (textArgument_copies h 0) fun w₁ key _ le e => ?_
    subst e
    refine .bind .get fun w₂ m m' le₂ same => ?_
    refine .bind (.orFail fun w₃ le₃ => ?_) fun _ _ _ _ => .one
    have rel := record_get?_renamed same (same.record a) name key
    exact rel_imp (fun _ _ => Value.Renamed.mono le₃) rel

end

end Exec

-- Calls with the same arguments but for addresses.
def CallHandler.Copies (call call' : CallHandler) : Prop :=
  ∀ {w : Renaming} (g : FuncDecl) {receiver receiver' : Option Value} {as as' : List Value},
    Option.Rel (Value.Renamed w) receiver receiver' → Values.Renamed w as as' →
      Exec.Copies w (call g receiver as) (call' g receiver' as') Values.Renamed

namespace Exec

section

variable {w : Renaming} {p : Program} {call call' : CallHandler} {f f' : Frame}
  (calls : call.Copies call')

theorem binding?_copies (hf : f.Renamed w f') (name : String) :
    Copies w (binding? f name) (binding? f' name) fun w₁ => Option.Rel (Value.Renamed w₁) := by
  refine .bind .get fun w₁ m m' le same => .pure fun w₂ le₂ => ?_
  have inFrame := hf.get? name
  have inPackage := same.globals.get? name
  cases x : f.get? name <;> cases y : f'.get? name <;> simp only [x, y] at inFrame ⊢
  · exact rel_imp (fun _ _ => Value.Renamed.mono le₂) inPackage
  · cases inFrame
  · cases inFrame
  · exact .some ((Option.rel_some_some.1 inFrame).mono (le_trans le le₂))

include calls in
theorem callMethod_copies {v v' : Value} (hv : v.Renamed w v') (name : String)
    {as as' : List Value} (h : Values.Renamed w as as') :
    Copies w (callMethod p call v name as) (callMethod p call' v' name as') Values.Renamed := by
  cases hv with
  | object found =>
    refine .bind .get fun w₁ m m' le same => ?_
    have found := getElem?_of_extends le.2 found
    rw [(same.object found).type, same.recordOf?_eq (.object found)]
    split
    · exact calls _ (.some (.object found)) (Value.forall₂_mono le h)
    · exact recordMethod_copies _ name (Value.forall₂_mono le h)
    · exact .fail _
  | record a => exact recordMethod_copies a name h
  | _ => exact .fail _

theorem zero_renamed (type : TypeExpr) : (p.zero type).Renamed w (p.zero type) := by
  refine Program.zeroWithin_induction (P := fun v => v.Renamed w v) (fun v atom => ?_)
    (.items .nil) p type _
  cases v <;> first | contradiction | constructor

theorem zeros_renamed (count : Nat) (type : TypeExpr) :
    Values.Renamed w (List.replicate count (p.zero type)) (List.replicate count (p.zero type)) :=
  List.forall₂_same.2 fun _ hv => List.eq_of_mem_replicate hv ▸ zero_renamed type

variable {xs xs' : List (Exec Value)} (args : List.Forall₂ (Copies w · · Value.Renamed) xs xs')

include args

theorem callBuiltin_copies (b : Builtin) (written : List Expr) :
    Copies w (callBuiltin p b written xs) (callBuiltin p b written xs') Value.Renamed := by
  unfold callBuiltin
  cases b with
  | len =>
    rcases args with _ | ⟨head, _ | _⟩
    · exact .failType _
    · exact .bind head fun _ _ _ _ => length_copies
    · exact .failType _
  | panic =>
    rcases args with _ | ⟨head, _ | _⟩
    · exact .failType _
    · exact .bind head fun _ _ _ _ _ => .fail _
    · exact .failType _
  | convert type =>
    rcases args with _ | ⟨head, _ | _⟩
    · exact .failType _
    · exact .bind head fun _ _ _ _ => convert_copies type
    · exact .failType _
  | append =>
    rcases args with _ | ⟨head, tail⟩
    · exact .failType _
    · refine .bind head fun w₁ _ _ le₁ hv => .bind (appendable_copies hv) fun w₂ _ _ le₂ hs => ?_
      have tail := tail.imp fun _ _ h => Copies.later h (le_trans le₁ le₂)
      refine .bind (all_copies tail) fun w₃ _ _ le₃ hs' => .value (.items ?_)
      exact List.rel_append (Value.forall₂_mono le₃ hs) hs'
  | make =>
    rcases written with _ | ⟨e, _⟩
    · exact .failType _
    cases e with
    | typeOperand _ type =>
      rcases args with _ | ⟨_, sizes⟩
      · exact .failType _
      cases type with
      | slice element =>
        rcases sizes with _ | ⟨size, _⟩
        · exact .value (.items (zeros_renamed _ _))
        · refine .bind size fun _ _ _ _ hv => ?_
          rw [hv.int?_eq]
          exact .value (.items (zeros_renamed _ _))
      | map => exact .allocMap .empty
      | _ => exact .failType _
    | _ => exact .failType _

include calls in
theorem callNamed_copies (hf : f.Renamed w f') (name : String) (written : List Expr) :
    Copies w (callNamed p call f name written xs) (callNamed p call' f' name written xs')
      Values.Renamed := by
  refine .bind (binding?_copies hf name) fun w₁ bound bound' le hbound => ?_
  have args : List.Forall₂ (Copies w₁ · · Value.Renamed) xs xs' := args.imp fun _ _ h => h.later le
  dsimp only
  rw [isSome_eq_of_rel hbound]
  split
  · exact .bind (callBuiltin_copies args _ written) fun _ _ _ _ => .one
  · cases p.underlying? name with
    | some underlying =>
      rcases args with _ | ⟨head, _ | _⟩
      · exact .failType _
      · refine .bind head fun w₂ _ _ _ hv => ?_
        exact .bind (convert_copies _ hv) fun _ _ _ _ => .one
      · exact .failType _
    | none =>
      refine .bind (.orFail_eq rfl) fun w₂ g _ le₂ e => ?_
      subst e
      refine .bind (all_copies (args.imp fun _ _ h => h.later le₂)) fun _ _ _ _ hs => ?_
      exact calls g .none hs

include calls in
theorem callResults_copies (hf : f.Renamed w f') (callee : Expr) {x x' : Exec Value}
    (hx : Copies w x x' Value.Renamed) (written : List Expr) :
    Copies w (callResults p call f callee x written xs)
      (callResults p call' f' callee x' written xs') Values.Renamed := by
  unfold callResults
  split
  · refine .bind hx fun w₁ v v' le hv => ?_
    refine .bind (all_copies (args.imp fun _ _ h => h.later le)) fun w₂ _ _ le₂ hs => ?_
    exact callMethod_copies calls (hv.mono le₂) _ hs
  · exact callNamed_copies calls args hf _ written
  · exact .fail _

omit args

theorem truthValue_copies {x x' : Exec Value} (hx : Copies w x x' Value.Renamed) :
    Copies w (do return .bool (← truth (← x))) (do return .bool (← truth (← x')))
      Value.Renamed := by
  refine .bind hx fun _ _ _ _ hv => .bind (truth_copies hv) fun _ b _ _ e => ?_
  subst e
  exact .value (.bool b)

mutual

-- An expression has the same value but for addresses.
theorem eval_copies (calls : call.Copies call') {w : Renaming} {f f' : Frame}
    (hf : f.Renamed w f') : ∀ e : Expr,
    Copies w (eval p call f e) (eval p call' f' e) Value.Renamed
  | .ident _ name => by
    rw [eval, eval]
    refine .bind (binding?_copies hf name) fun _ _ _ _ bound => .orFail fun _ le => ?_
    exact rel_imp (fun _ _ => Value.Renamed.mono le) bound
  | .literal _ value => by
    rw [eval, eval]
    exact .value (literalValue_renamed value)
  | .select _ base member => by
    rw [eval, eval]
    exact .bind (eval_copies calls hf base) fun _ _ _ _ hv => select_copies hv member
  | .call _ callee _ args => by
    rw [eval, eval]
    refine .bind ?_ fun _ _ _ _ => oneResult_copies
    exact callResults_copies calls (actions_copies calls hf args) hf callee
      (receiver_copies calls hf callee) args
  | .index _ base i => by
    rw [eval, eval]
    refine .bind (eval_copies calls hf base) fun _ _ _ le hv => ?_
    exact .bind (eval_copies calls (hf.mono le) i) fun _ _ _ le₂ hi => item_copies (hv.mono le₂) hi
  | .binary _ op left right => by
    by_cases hand : op = .and
    · subst hand
      rw [eval, eval]
      refine .bind (eval_copies calls hf left) fun _ _ _ le hv => ?_
      refine .bind (truth_copies hv) fun _ b _ le₂ e => ?_
      subst e
      have right := eval_copies calls (hf.mono (le_trans le le₂)) right
      exact .ite (truthValue_copies right) (.value (.bool _))
    · by_cases hor : op = .or
      · subst hor
        rw [eval, eval]
        refine .bind (eval_copies calls hf left) fun _ _ _ le hv => ?_
        refine .bind (truth_copies hv) fun _ b _ le₂ e => ?_
        subst e
        have right := eval_copies calls (hf.mono (le_trans le le₂)) right
        exact .ite (.value (.bool _)) (truthValue_copies right)
      · rw [eval, eval]
        · refine .bind (eval_copies calls hf left) fun _ _ _ le ha => ?_
          refine .bind (eval_copies calls (hf.mono le) right) fun _ _ _ le₂ hb => ?_
          exact binary_copies (ha.mono le₂) hb
        all_goals assumption
  | .unary _ op operand => by
    rw [eval, eval]
    exact .bind (eval_copies calls hf operand) fun _ _ _ _ hv => unary_copies op hv
  | .paren _ inner => by
    rw [eval, eval]
    exact eval_copies calls hf inner
  | .composite _ type elements => by
    have entries := entries_copies calls hf elements
    unfold eval
    split
    · exact sliceLiteral_copies entries
    · exact mapLiteral_copies entries
    · exact structLiteral_copies p _ entries
  | .typeOperand _ _ => by
    rw [eval, eval]
    exact .failType _

theorem receiver_copies (calls : call.Copies call') {w : Renaming} {f f' : Frame}
    (hf : f.Renamed w f') : ∀ e : Expr,
    Copies w (receiver p call f e) (receiver p call' f' e) Value.Renamed
  | .select _ base _ => by
    rw [receiver, receiver]
    exact eval_copies calls hf base
  | .ident _ _ | .literal _ _ | .call _ _ _ _ | .index _ _ _ | .binary _ _ _ _ | .unary _ _ _
  | .paren _ _ | .composite _ _ _ | .typeOperand _ _ => by
    rw [receiver, receiver]
    · exact .fail _
    all_goals simp

theorem actions_copies (calls : call.Copies call') {w : Renaming} {f f' : Frame}
    (hf : f.Renamed w f') : ∀ es : List Expr,
    List.Forall₂ (Copies w · · Value.Renamed) (actions p call f es) (actions p call' f' es)
  | [] => .nil
  | e :: rest => by
    rw [actions, actions]
    exact .cons (eval_copies calls hf e) (actions_copies calls hf rest)

theorem entries_copies (calls : call.Copies call') {w : Renaming} {f f' : Frame}
    (hf : f.Renamed w f') :
    ∀ es : List Element, List.Forall₂ (EntryCopies w) (entries p call f es) (entries p call' f' es)
  | [] => .nil
  | .positional value :: rest => by
    rw [entries, entries]
    exact .cons ⟨rfl, .failType _, eval_copies calls hf value⟩ (entries_copies calls hf rest)
  | .keyed key value :: rest => by
    rw [entries, entries]
    have head := And.intro (eval_copies calls hf key) (eval_copies calls hf value)
    exact .cons ⟨rfl, head.1, head.2⟩ (entries_copies calls hf rest)

end

include calls

theorem evalAll_copies (hf : f.Renamed w f') (e : Expr) :
    Copies w (evalAll p call f e) (evalAll p call' f' e) Values.Renamed := by
  unfold evalAll
  split
  case h_1 callee _ args =>
    exact callResults_copies calls (actions_copies calls hf args) hf callee
      (receiver_copies calls hf callee) args
  case h_2 base i =>
    refine .bind (eval_copies calls hf base) fun _ _ _ le hv => ?_
    refine .bind (eval_copies calls (hf.mono le) i) fun _ _ _ le₂ hi => ?_
    exact itemAndPresence_copies (hv.mono le₂) hi
  case h_3 => exact .bind (eval_copies calls hf e) fun _ _ _ _ => .one

theorem evalFor_copies (hf : f.Renamed w f') (count : Nat) (es : List Expr) :
    Copies w (evalFor p call f count es) (evalFor p call' f' count es) Values.Renamed := by
  unfold evalFor
  split
  · split
    · refine .bind (evalAll_copies calls hf _) fun _ vs vs' _ hs => ?_
      rw [hs.length_eq]
      split
      · exact .values hs
      · exact .failType _
    · exact .bind (eval_copies calls hf _) fun _ _ _ _ => .one
  · exact all_copies (actions_copies calls hf es)

theorem check_copies (hf : f.Renamed w f') (e : Expr) :
    Copies w (check p call f e) (check p call' f' e) fun _ => Eq :=
  .bind (eval_copies calls hf e) fun _ _ _ _ => truth_copies

end

end Exec

end FieldAccess
