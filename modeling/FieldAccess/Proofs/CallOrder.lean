import FieldAccess.Proofs.TemporaryNames
import FieldAccess.Redirect.Header

namespace FieldAccess

namespace Expr

mutual

-- The calls that evaluating an expression makes, in order. Operands that are skipped at run time
-- count as well.
def callsMade : Expr → List Expr
  | ident _ _ | literal _ _ | typeOperand _ _ => []
  | select _ base _ => base.callsMade
  | call span callee typeArgs args =>
    callee.callsMade ++ callsMadeByList args ++ [call span callee typeArgs args]
  | index _ base i => base.callsMade ++ i.callsMade
  | binary _ _ left right => left.callsMade ++ right.callsMade
  | unary _ _ operand => operand.callsMade
  | paren _ inner => inner.callsMade
  | composite _ _ elements => callsMadeByElements elements

def callsMadeByList : List Expr → List Expr
  | [] => []
  | e :: rest => e.callsMade ++ callsMadeByList rest

def callsMadeByElements : List Element → List Expr
  | [] => []
  | .positional value :: rest => value.callsMade ++ callsMadeByElements rest
  | .keyed key value :: rest => key.callsMade ++ value.callsMade ++ callsMadeByElements rest

end

-- The calls that the operands of a place make. What is no place has no operands: an assignment to
-- it is refused before anything is evaluated.
def placeCalls : Expr → List Expr
  | paren _ inner => inner.placeCalls
  | index _ base i => base.callsMade ++ i.callsMade
  | select _ base _ => base.callsMade
  | unary _ .deref inner => inner.callsMade
  | _ => []

mutual

theorem callsMade_of_isCallFree : (e : Expr) → e.isCallFree → e.callsMade = []
  | ident _ _, _ | literal _ _, _ | typeOperand _ _, _ => rfl
  | select _ base _, h => callsMade_of_isCallFree base h
  | index _ base i, h => by
    obtain ⟨hb, hi⟩ := Bool.and_eq_true_iff.1 h
    rw [callsMade, callsMade_of_isCallFree base hb, callsMade_of_isCallFree i hi, List.append_nil]
  | binary _ _ left right, h => by
    obtain ⟨hl, hr⟩ := Bool.and_eq_true_iff.1 h
    rw [callsMade, callsMade_of_isCallFree left hl, callsMade_of_isCallFree right hr, List.append_nil]
  | unary _ _ operand, h => callsMade_of_isCallFree operand h
  | paren _ inner, h => callsMade_of_isCallFree inner h
  | composite _ _ elements, h => callsMadeByElements_of_areCallFree elements h

theorem callsMadeByElements_of_areCallFree :
    (es : List Element) → areCallFree es → callsMadeByElements es = []
  | [], _ => rfl
  | .positional value :: rest, h => by
    obtain ⟨hv, hr⟩ := Bool.and_eq_true_iff.1 h
    rw [callsMadeByElements, callsMade_of_isCallFree value hv,
      callsMadeByElements_of_areCallFree rest hr, List.append_nil]
  | .keyed key value :: rest, h => by
    obtain ⟨both, hr⟩ := Bool.and_eq_true_iff.1 h
    obtain ⟨hk, hv⟩ := Bool.and_eq_true_iff.1 both
    rw [callsMadeByElements, callsMade_of_isCallFree key hk, callsMade_of_isCallFree value hv,
      callsMadeByElements_of_areCallFree rest hr, List.append_nil, List.append_nil]

end

theorem placeCalls_of_isCallFree {e : Expr} (h : e.isCallFree) : e.placeCalls = [] := by
  induction e using placeCalls.induct with
  | case1 _ inner ih => exact ih h
  | case2 span base i => exact callsMade_of_isCallFree (.index span base i) h
  | case3 span base member => exact callsMade_of_isCallFree (.select span base member) h
  | case4 span inner => exact callsMade_of_isCallFree (.unary span .deref inner) h
  | case5 => rw [placeCalls] <;> assumption

theorem isCallFree_of_isStable {written : List String} {e : Expr} (h : e.isStable written) :
    e.isCallFree := by
  induction e using Expr.isStable.induct with
  | case1 => rfl
  | case2 _ inner ih => exact ih h
  | case3 e other other' => rw [isStable.eq_3 _ e other other'] at h; cases h

end Expr

def Target.callsMade : Target → List Expr
  | .blank => []
  | .plain place => place.placeCalls
  | .field receiver _ => receiver.callsMade

def Stmt.callsMade : Stmt → List Expr
  | .expr e => e.callsMade
  | .assign _ targets _ values =>
    targets.flatMap Expr.placeCalls ++ values.flatMap Expr.callsMade
  | .step _ target _ => target.placeCalls
  | .var _ _ _ values | .ret _ values => values.flatMap Expr.callsMade
  | _ => []

-- A list is made up of two others, each in its order.
inductive Interleaved {α : Type} : List α → List α → List α → Prop
  | nil : Interleaved [] [] []
  | left {a : α} {ls rs all : List α} : Interleaved ls rs all → Interleaved (a :: ls) rs (a :: all)
  | right {a : α} {ls rs all : List α} : Interleaved ls rs all → Interleaved ls (a :: rs) (a :: all)

namespace Interleaved

variable {α : Type} {ls rs all ls' rs' all' : List α}

theorem all_left (ls : List α) : Interleaved ls [] ls := by
  induction ls with
  | nil => exact .nil
  | cons _ _ ih => exact .left ih

theorem all_right (rs : List α) : Interleaved [] rs rs := by
  induction rs with
  | nil => exact .nil
  | cons _ _ ih => exact .right ih

theorem append (h : Interleaved ls rs all) (h' : Interleaved ls' rs' all') :
    Interleaved (ls ++ ls') (rs ++ rs') (all ++ all') := by
  induction h with
  | nil => exact h'
  | left _ ih => exact .left ih
  | right _ ih => exact .right ih

-- The first element of one list may be counted to the other.
theorem shift {a : α} (h : Interleaved (a :: ls) rs all) :
    ∃ rs', Interleaved ls rs' all ∧ ∀ b ∈ rs', b = a ∨ b ∈ rs := by
  generalize shape : a :: ls = whole at h
  induction h with
  | nil => cases shape
  | @left _ _ rs _ rest =>
    obtain ⟨rfl, rfl⟩ := List.cons.inj shape
    exact ⟨a :: rs, .right rest, fun b hb => List.mem_cons.1 hb⟩
  | @right c _ _ _ _ ih =>
    obtain ⟨rs', weave, mem⟩ := ih shape
    refine ⟨c :: rs', .right weave, fun b hb => ?_⟩
    rcases List.mem_cons.1 hb with rfl | hb
    · exact .inr (List.mem_cons_self ..)
    · exact (mem b hb).imp_right (List.mem_cons_of_mem _)

end Interleaved

-- The calls that writing a field adds to those of its receiver and its value: of the mutator, and
-- conversions to the enumeration of the field.
inductive FieldInfo.WriteCall (settings : Settings) (info : FieldInfo) : Expr → Prop
  | mutator (span : Span) (receiver arg : Expr) :
      WriteCall settings info (.call span (.select span receiver info.mutator) [] [arg])
  | conversion {enum : String} (converts : info.enum? = some enum) (span : Span) (e : Expr) :
      WriteCall settings info (.callNamed enum [e] span)
  | sliceHelper {enum : String} (converts : info.enum? = some enum) (span : Span) (e : Expr) :
      WriteCall settings info (.callNamed (settings.sliceHelper enum) [e] span)

-- All that is called is called in order, with nothing in between but what may be added.
def Follows (Added : Expr → Prop) (wanted made : List Expr) : Prop :=
  ∃ added, Interleaved wanted added made ∧ ∀ c ∈ added, Added c

namespace Follows

variable {Added Added' : Expr → Prop} {wanted made wanted' made' : List Expr}

theorem refl (Added : Expr → Prop) (calls : List Expr) : Follows Added calls calls :=
  ⟨[], .all_left calls, List.forall_mem_nil _⟩

theorem append (h : Follows Added wanted made) (h' : Follows Added wanted' made') :
    Follows Added (wanted ++ wanted') (made ++ made') := by
  obtain ⟨added, weave, all⟩ := h
  obtain ⟨added', weave', all'⟩ := h'
  exact ⟨added ++ added', weave.append weave', List.forall_mem_append.2 ⟨all, all'⟩⟩

theorem single {c : Expr} (h : Added c) : Follows Added [] [c] :=
  ⟨[c], .all_right [c], List.forall_mem_singleton.2 h⟩

theorem snoc (h : Follows Added wanted made) {c : Expr} (last : Added c) :
    Follows Added wanted (made ++ [c]) := by
  have both := h.append (single last)
  rwa [List.append_nil] at both

theorem mono (h : Follows Added wanted made) (imp : ∀ c, Added c → Added' c) :
    Follows Added' wanted made :=
  have ⟨added, weave, all⟩ := h
  ⟨added, weave, fun c hc => imp c (all c hc)⟩

-- The first call may count as added.
theorem drop {c : Expr} (h : Follows Added (c :: wanted) made) (first : Added c) :
    Follows Added wanted made := by
  obtain ⟨added, weave, all⟩ := h
  obtain ⟨added', weave', mem⟩ := weave.shift
  refine ⟨added', weave', fun d hd => ?_⟩
  rcases mem d hd with rfl | hd
  · exact first
  · exact all d hd

theorem flatMap {α : Type} {f g : α → List Expr} {as : List α}
    (h : ∀ a ∈ as, Follows Added (f a) (g a)) : Follows Added (as.flatMap f) (as.flatMap g) := by
  induction as with
  | nil => exact refl ..
  | cons a rest ih =>
    exact (h a (List.mem_cons_self ..)).append (ih fun b hb => h b (List.mem_cons_of_mem _ hb))

end Follows

section

variable {settings : Settings} {span : Span} {info : FieldInfo} {value : TypedExpr}
  {receiver : Expr}

theorem callsMade_callNamed (name : String) (e : Expr) :
    (Expr.callNamed name [e] span).callsMade = e.callsMade ++ [Expr.callNamed name [e] span] := by
  simp [Expr.callNamed, Expr.callsMade, Expr.callsMadeByList]

-- A literal without keys calls what its elements call.
theorem callsMade_of_literalElements? {e : Expr} {elements : List Expr}
    (h : FieldInfo.literalElements? e = some elements) :
    e.callsMade = elements.flatMap Expr.callsMade := by
  unfold FieldInfo.literalElements? at h
  split at h <;> try contradiction
  case h_1 list =>
    split at h <;> try contradiction
    case isTrue positional =>
      obtain rfl := Option.some.inj h
      clear h
      rw [Expr.callsMade]
      induction list with
      | nil => rfl
      | cons entry rest ih =>
        cases entry with
        | keyed => simp [Element.key?] at positional
        | positional value =>
          have rest := ih (by simpa [Element.key?] using positional)
          rw [Expr.callsMadeByElements, rest, List.map_cons, List.flatMap_cons, Element.value]

variable (settings span info value) in
-- A value is evaluated in the argument as it stands, before it is converted.
theorem argument_follows :
    Follows (info.WriteCall settings) value.expr.callsMade
      (info.argument settings value span).callsMade := by
  unfold FieldInfo.argument
  split
  case h_1 => exact .refl ..
  case h_2 enum converts =>
    have conversion (e : Expr) : Follows (info.WriteCall settings) e.callsMade
        (Expr.callNamed enum [e] span).callsMade := by
      rw [callsMade_callNamed]
      exact (Follows.refl ..).snoc (.conversion converts span e)
    split
    case isFalse => split <;> [exact .refl ..; exact conversion _]
    case isTrue =>
      split
      case isTrue => exact .refl ..
      case isFalse =>
        split
        case h_2 =>
          rw [callsMade_callNamed]
          exact (Follows.refl ..).snoc (.sliceHelper converts span _)
        case h_1 elements literal =>
          have elementwise (es : List Expr) :
              Expr.callsMadeByElements (es.map fun e => .positional (.callNamed enum [e] span)) =
                es.flatMap fun e => (Expr.callNamed enum [e] span).callsMade := by
            induction es with
            | nil => rfl
            | cons e rest ih => rw [List.map_cons, Expr.callsMadeByElements, ih, List.flatMap_cons]
          rw [callsMade_of_literalElements? literal, Expr.callsMade, elementwise]
          exact .flatMap fun e _ => conversion e

variable (settings span info value receiver) in
-- A mutator is called once its receiver and its argument are evaluated.
theorem write_follows :
    Follows (info.WriteCall settings) (receiver.callsMade ++ value.expr.callsMade)
      (info.write settings receiver value span).callsMade := by
  have parts := ((Follows.refl (info.WriteCall settings) receiver.callsMade).append
    (argument_follows settings span info value)).snoc
    (.mutator span receiver (info.argument settings value span))
  simpa [FieldInfo.write, Stmt.callsMade, Expr.callsMade, Expr.callsMadeByList] using parts

end

-- What a variable is bound to where it is captured.
def Captured.pairs (c : Captured) : List (String × Expr) :=
  c.names.zip c.values

-- The operand stays if it calls nothing; or else a variable takes its place.
def Expr.OperandKept (span : Span) (bound : List (String × Expr)) (e e' : Expr) : Prop :=
  if e.isCallFree then e' = e else ∃ name, e' = .ident span name ∧ (name, e) ∈ bound

-- A place stays, with variables for those operands that call something.
inductive Expr.PlaceKept (span : Span) (bound : List (String × Expr)) : Expr → Expr → Prop
  | paren {at_ : Span} {inner e : Expr} :
      PlaceKept span bound inner e → PlaceKept span bound (.paren at_ inner) e
  | index {at_ : Span} {base base' i i' : Expr} :
      base.OperandKept span bound base' → i.OperandKept span bound i' →
      PlaceKept span bound (.index at_ base i) (.index at_ base' i')
  | select {at_ : Span} {base base' : Expr} {member : String} :
      base.OperandKept span bound base' →
      PlaceKept span bound (.select at_ base member) (.select at_ base' member)
  | deref {at_ : Span} {inner inner' : Expr} :
      inner.OperandKept span bound inner' →
      PlaceKept span bound (.unary at_ .deref inner) (.unary at_ .deref inner')
  | same {e : Expr} : e.placeCalls = [] → PlaceKept span bound e e

theorem Expr.OperandKept.mono {span : Span} {bound bound' : List (String × Expr)} {e e' : Expr}
    (h : e.OperandKept span bound e') (sub : bound ⊆ bound') : e.OperandKept span bound' e' := by
  unfold OperandKept at h ⊢
  split
  case isTrue free => rwa [if_pos free] at h
  case isFalse calls =>
    rw [if_neg calls] at h
    obtain ⟨name, same, mem⟩ := h
    exact ⟨name, same, sub mem⟩

theorem Expr.PlaceKept.mono {span : Span} {bound bound' : List (String × Expr)} {e e' : Expr}
    (h : e.PlaceKept span bound e') (sub : bound ⊆ bound') : e.PlaceKept span bound' e' := by
  induction h with
  | paren _ ih => exact .paren ih
  | index base i => exact .index (base.mono sub) (i.mono sub)
  | select base => exact .select (base.mono sub)
  | deref inner => exact .deref (inner.mono sub)
  | same none => exact .same none

-- What has been captured for an operand, a place or a target: variables and their values in pairs,
-- which call what it called.
structure Captured.Takes (c : Captured) (calls : List Expr) : Prop where
  paired : c.names.length = c.values.length
  calls : c.values.flatMap Expr.callsMade = calls

namespace Captured.Takes

variable {c c' : Captured} {calls calls' : List Expr}

theorem none : ({} : Captured).Takes [] :=
  ⟨rfl, rfl⟩

theorem append (h : c.Takes calls) (h' : c'.Takes calls') : (c ++ c').Takes (calls ++ calls') where
  paired := by simp [h.paired, h'.paired]
  calls := by simp [h.calls, h'.calls]

end Captured.Takes

theorem Captured.pairs_append {c c' : Captured} (h : c.names.length = c.values.length) :
    (c ++ c').pairs = c.pairs ++ c'.pairs :=
  List.zip_append h

section

variable {span : Span} {s : Temporaries}

variable (span s) in
theorem captureCalling_takes (e : Expr) :
    let out := (captureCalling span e s).1
    e.OperandKept span out.2.pairs out.1 ∧ out.1.callsMade = [] ∧ out.2.Takes e.callsMade := by
  intro out
  simp only [out, captureCalling, Expr.OperandKept]
  split
  case isTrue free =>
    have none := Expr.callsMade_of_isCallFree e free
    exact ⟨rfl, none, none ▸ .none⟩
  case isFalse => exact ⟨⟨_, rfl, List.mem_singleton_self _⟩, rfl, rfl, List.append_nil _⟩

variable (span s) in
theorem capturePlace_takes (e : Expr) :
    let out := (capturePlace span e s).1
    e.PlaceKept span out.2.pairs out.1 ∧ out.1.placeCalls = [] ∧ out.2.Takes e.placeCalls := by
  induction e using capturePlace.induct generalizing s with
  | case1 _ inner ih =>
    obtain ⟨kept, none, takes⟩ := ih s
    exact ⟨.paren kept, none, takes⟩
  | case2 at_ base i =>
    obtain ⟨keptBase, noneBase, takesBase⟩ := captureCalling_takes span s base
    obtain ⟨keptIndex, noneIndex, takesIndex⟩ :=
      captureCalling_takes span (captureCalling span base s).2 i
    let second := (captureCalling span i (captureCalling span base s).2).1.2
    have pairs : ((captureCalling span base s).1.2 ++ second).pairs =
        (captureCalling span base s).1.2.pairs ++ second.pairs := Captured.pairs_append takesBase.paired
    refine ⟨.index (keptBase.mono ?_) (keptIndex.mono ?_), ?_, takesBase.append takesIndex⟩
    · exact pairs ▸ List.subset_append_left ..
    · exact pairs ▸ List.subset_append_right ..
    · exact List.append_eq_nil_iff.2 ⟨noneBase, noneIndex⟩
  | case3 at_ base member =>
    obtain ⟨kept, none, takes⟩ := captureCalling_takes span s base
    exact ⟨.select kept, none, takes⟩
  | case4 at_ inner =>
    obtain ⟨kept, none, takes⟩ := captureCalling_takes span s inner
    exact ⟨.deref kept, none, takes⟩
  | case5 e h₁ h₂ h₃ h₄ =>
    have none : e.placeCalls = [] := by
      rw [Expr.placeCalls.eq_5 e] <;> assumption
    rw [capturePlace.eq_5 _ _ h₁ h₂ h₃ h₄]
    exact ⟨.same none, none, none ▸ .none⟩

-- Names are kept, so nothing but the blank name gets blank.
theorem capturePlace_isBlank {e : Expr} (calls : ¬e.isCallFree) :
    (capturePlace span e s).1.1.isBlank = false := by
  induction e using capturePlace.induct generalizing s with
  | case1 _ inner ih => exact ih calls
  | case2 => rfl
  | case3 => rfl
  | case4 => rfl
  | case5 e h₁ h₂ h₃ h₄ =>
    rw [capturePlace.eq_5 _ _ h₁ h₂ h₃ h₄]
    cases e with
    | ident => exact absurd rfl calls
    | _ => rfl

end

end FieldAccess
