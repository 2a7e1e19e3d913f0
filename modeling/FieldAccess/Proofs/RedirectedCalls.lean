import FieldAccess.Proofs.AssignmentShape
import FieldAccess.Proofs.NamesInUse
import Mathlib.Algebra.BigOperators.Group.List.Basic
import Mathlib.Algebra.Order.Group.Multiset

namespace FieldAccess

def Expr.isCall : Expr → Bool
  | call _ _ _ _ => true
  | _ => false

-- The calls among expressions, each as often as it stands there.
def callsAmong (es : List Expr) : Multiset Expr :=
  (es.filter Expr.isCall : List Expr)

section

variable {es es' : List Expr} {span : Span} {e : Expr}

@[simp]
theorem callsAmong_nil : callsAmong [] = 0 := rfl

@[simp]
theorem callsAmong_append : callsAmong (es ++ es') = callsAmong es + callsAmong es' := by
  simp [callsAmong, List.filter_append]

@[simp]
theorem callsAmong_select {member : String} :
    callsAmong (.select span e member :: es) = callsAmong es := rfl

@[simp]
theorem callsAmong_call {typeArgs : List TypeExpr} {args : List Expr} :
    callsAmong (.call span e typeArgs args :: es) =
      .call span e typeArgs args ::ₘ callsAmong es := rfl

theorem callsAmong_flatMap {α : Type} (f : α → List Expr) (as : List α) :
    callsAmong (as.flatMap f) = (as.map fun a => callsAmong (f a)).sum := by
  induction as <;> simp_all

-- Code that calls nothing has no calls.
theorem callsAmong_of_isCallFree (h : e.isCallFree) : callsAmong e.accesses = 0 := by
  rw [callsAmong, List.filter_eq_nil_iff.2 fun a ha => ?_]
  · rfl
  · have free := Expr.isCallFree_of_mem_accesses e h ha
    cases a with
    | call => simp [Expr.isCallFree] at free
    | _ => simp [Expr.isCall]

end

namespace Stmt

theorem Within.trans {s s' s'' : Stmt} (h : s.Within s') (h' : s'.Within s'') : s.Within s'' := by
  induction h' with
  | self => exact h
  | part mem _ ih => exact .part mem ih

end Stmt

-- All statements of some code stand in other code, at any depth.
def StandIn (ss code : List Stmt) : Prop :=
  ∀ s ∈ ss, ∃ top ∈ code, s.Within top

namespace StandIn

variable {ss ss' code : List Stmt} {s : Stmt}

theorem of_subset (h : ss ⊆ code) : StandIn ss code :=
  fun s hs => ⟨s, h hs, .self s⟩

theorem of_parts (mem : s ∈ code) (sub : ss ⊆ s.parts) : StandIn ss code :=
  fun t ht => ⟨s, mem, .part (sub ht) (.self t)⟩

theorem refl (ss : List Stmt) : StandIn ss ss :=
  of_subset (List.Subset.refl ss)

theorem append (h : StandIn ss code) (h' : StandIn ss' code) : StandIn (ss ++ ss') code :=
  fun s hs => (List.mem_append.1 hs).elim (h s) (h' s)

theorem trans (h : StandIn ss ss') (h' : StandIn ss' code) : StandIn ss code := by
  intro s hs
  obtain ⟨top, mem, within⟩ := h s hs
  obtain ⟨top', mem', within'⟩ := h' top mem
  exact ⟨top', mem', within.trans within'⟩

end StandIn

-- A place is the receiver, or a variable that a statement of the code declares with it as its value.
def HeldIn (code : List Stmt) (span : Span) (receiver place : Expr) : Prop :=
  place = receiver ∨ ∃ name s, place = .ident span name ∧ StandIn [s] code ∧
    (name, receiver) ∈ s.bound

theorem heldIn_self (code : List Stmt) (span : Span) (receiver : Expr) :
    HeldIn code span receiver receiver :=
  .inl rfl

theorem HeldIn.mono {code code' : List Stmt} {span : Span} {receiver place : Expr}
    (h : HeldIn code span receiver place) (sub : StandIn code code') :
    HeldIn code' span receiver place :=
  h.imp_right fun ⟨name, s, same, stands, bound⟩ => ⟨name, s, same, stands.trans sub, bound⟩

theorem heldIn_of_bound {code : List Stmt} {span : Span} {receiver place : Expr}
    (h : place = receiver ∨
      ∃ name, place = .ident span name ∧ (name, receiver) ∈ code.flatMap Stmt.bound) :
    HeldIn code span receiver place := by
  refine h.imp_right fun ⟨name, same, mem⟩ => ?_
  obtain ⟨s, hs, bound⟩ := List.mem_flatMap.1 mem
  exact ⟨name, s, same, .of_subset (by simpa using hs), bound⟩

-- Calls of conversions to the enumeration of a field.
inductive FieldInfo.Conversion (settings : Settings) (info : FieldInfo) : Expr → Prop
  | one {enum : String} {span : Span} {e : Expr} (converts : info.enum? = some enum) :
      Conversion settings info (.callNamed enum [e] span)
  | slice {enum : String} {span : Span} {e : Expr} (converts : info.enum? = some enum) :
      Conversion settings info (.callNamed (settings.sliceHelper enum) [e] span)

-- The calls that write the field of a receiver: that of the mutator, the conversions in its argument,
-- and that of the accessor where a variable holds the receiver for both.
inductive FieldInfo.WrittenBy (settings : Settings) (code : List Stmt) (info : FieldInfo)
    (receiver : Expr) : Expr → Prop
  | mutator {span : Span} {place : Expr} (value : TypedExpr)
      (held : HeldIn code span receiver place) :
      WrittenBy settings code info receiver
        (.call span (.select span place info.mutator) [] [info.argument settings value span])
  | accessor {span : Span} {place : Expr} (held : HeldIn code span receiver place) :
      WrittenBy settings code info receiver (info.read place span).expr
  | conversion {c : Expr} (converts : info.Conversion settings c) :
      WrittenBy settings code info receiver c

theorem FieldInfo.WrittenBy.mono {settings : Settings} {code code' : List Stmt} {info : FieldInfo}
    {receiver c : Expr} (h : info.WrittenBy settings code receiver c) (sub : StandIn code code') :
    info.WrittenBy settings code' receiver c := by
  cases h with
  | mutator value held => exact .mutator value (held.mono sub)
  | accessor held => exact .accessor (held.mono sub)
  | conversion converts => exact .conversion converts

-- Some calls are inserted, and all others stay.
def Inserts (P : Expr → Prop) (before after : Multiset Expr) : Prop :=
  ∃ inserted, after = before + inserted ∧ ∀ c ∈ inserted, P c

namespace Inserts

variable {P Q : Expr → Prop} {a a' b b' c : Multiset Expr} {e : Expr}

theorem refl (P : Expr → Prop) (a : Multiset Expr) : Inserts P a a :=
  ⟨0, (add_zero a).symm, by simp⟩

theorem of_eq (P : Expr → Prop) (h : a = b) : Inserts P a b :=
  h ▸ refl P a

theorem mono (h : Inserts P a b) (imp : ∀ c, P c → Q c) : Inserts Q a b :=
  have ⟨inserted, same, all⟩ := h
  ⟨inserted, same, fun c hc => imp c (all c hc)⟩

theorem add (h : Inserts P a b) (h' : Inserts P a' b') : Inserts P (a + a') (b + b') := by
  obtain ⟨inserted, rfl, all⟩ := h
  obtain ⟨inserted', rfl, all'⟩ := h'
  exact ⟨inserted + inserted', add_add_add_comm .., fun c hc =>
    (Multiset.mem_add.1 hc).elim (all c) (all' c)⟩

theorem trans (h : Inserts P a b) (h' : Inserts P b c) : Inserts P a c := by
  obtain ⟨inserted, rfl, all⟩ := h
  obtain ⟨inserted', rfl, all'⟩ := h'
  exact ⟨inserted + inserted', add_assoc .., fun c hc =>
    (Multiset.mem_add.1 hc).elim (all c) (all' c)⟩

-- One call is put around what there is.
theorem cons (h : P e) (rest : Inserts P a b) : Inserts P a (e ::ₘ b) := by
  obtain ⟨inserted, rfl, all⟩ := rest
  exact ⟨e ::ₘ inserted, (Multiset.add_cons ..).symm, Multiset.forall_mem_cons.2 ⟨h, all⟩⟩

theorem sum {α β : Type} {R : α → β → Prop} {f : α → Multiset Expr} {g : β → Multiset Expr}
    {as : List α} {bs : List β} (each : ∀ x y, x ∈ as → R x y → Inserts P (f x) (g y))
    (h : List.Forall₂ R as bs) : Inserts P (as.map f).sum (bs.map g).sum := by
  induction h with
  | nil => exact refl ..
  | cons head _ ih =>
    simp only [List.map_cons, List.sum_cons]
    refine (each _ _ (List.mem_cons_self ..) head).add (ih fun x y hx => ?_)
    exact each x y (List.mem_cons_of_mem _ hx)

end Inserts

section

variable {σ : Type} [TypeOracle σ]

-- What becomes of a call of the source: it stays as it is, or its parts are redirected, with all
-- selectors in them among those that the walk visits.
inductive RedirectContext.Retains (r : RedirectContext) (vs : List (Visit σ)) : Expr → Expr → Prop
  | unchanged (c : Expr) : Retains r vs c c
  | redirected {o : σ} {span : Span} {e : Expr} {typeArgs : List TypeExpr} {args : List Expr}
      {callee : TypedExpr} {values : List TypedExpr}
      (visited : Visit.reads o (.call span e typeArgs args) ⊆ vs)
      (called : r.value o e = .ok callee) (given : r.values o args = .ok values) :
      Retains r vs (.call span e typeArgs args)
        (.call span callee.expr typeArgs (values.map (·.expr)))

namespace Visit

-- The selector denotes a field that has an accessor and a mutator.
structure Denotes (r : RedirectContext) (v : Visit σ) (base : TypedExpr) (info : FieldInfo) :
    Prop where
  value : r.value v.oracle v.base = .ok base
  resolved : r.resolve v.oracle base.type v.member v.span = .ok (.proxied info)

-- The call stands for the selector of a field: a read is the call of the accessor on the redirected
-- base, and a write consists of the calls that write the field of that base.
def BecomesCall (r : RedirectContext) (code : List Stmt) (v : Visit σ) (base : Expr)
    (info : FieldInfo) (c : Expr) : Prop :=
  match v.use with
  | .read => c = (info.read base v.span).expr
  | .write => info.WrittenBy r.settings code base c

-- The call is inserted for one of the selectors.
def InsertedFor (r : RedirectContext) (vs : List (Visit σ)) (code : List Stmt) (c : Expr) : Prop :=
  ∃ v ∈ vs, ∃ base info, v.Denotes r base info ∧ v.BecomesCall r code base.expr info c

theorem InsertedFor.mono {r : RedirectContext} {vs ws : List (Visit σ)} {code code' : List Stmt}
    {c : Expr} (h : InsertedFor r vs code c) (sub : vs ⊆ ws) (stands : StandIn code code') :
    InsertedFor r ws code' c := by
  obtain ⟨v, hv, base, info, denotes, becomes⟩ := h
  refine ⟨v, sub hv, base, info, denotes, ?_⟩
  unfold BecomesCall at becomes ⊢
  split at becomes
  · exact becomes
  · exact becomes.mono stands

end Visit

-- Every call of the source stays, and the calls besides are inserted for selectors.
def Weaves (r : RedirectContext) (vs : List (Visit σ)) (code : List Stmt)
    (before after : Multiset Expr) : Prop :=
  ∃ kept, Multiset.Rel (r.Retains vs) before kept ∧ Inserts (Visit.InsertedFor r vs code) kept after

namespace Weaves

variable {r : RedirectContext} {vs ws : List (Visit σ)} {code code' : List Stmt}
  {a a' b b' c : Multiset Expr}

theorem of_inserts (h : Inserts (Visit.InsertedFor r vs code) a b) : Weaves r vs code a b :=
  ⟨a, Multiset.rel_refl_of_refl_on fun c _ => .unchanged c, h⟩

theorem of_eq (h : a = b) : Weaves r vs code a b :=
  of_inserts (.of_eq _ h)

theorem refl (r : RedirectContext) (vs : List (Visit σ)) (code : List Stmt) (a : Multiset Expr) :
    Weaves r vs code a a :=
  of_eq rfl

theorem congr (h : Weaves r vs code a b) (before : a = a') (after : b = b') :
    Weaves r vs code a' b' :=
  before ▸ after ▸ h

theorem widen (h : Weaves r vs code a b) (sub : vs ⊆ ws) (stands : StandIn code code') :
    Weaves r ws code' a b := by
  obtain ⟨kept, rel, inserts⟩ := h
  refine ⟨kept, rel.mono fun c _ c' _ retained => ?_, inserts.mono fun _ hc => hc.mono sub stands⟩
  cases retained with
  | unchanged => exact .unchanged c
  | redirected visited called given => exact .redirected (List.Subset.trans visited sub) called given

theorem add (h : Weaves r vs code a b) (h' : Weaves r vs code a' b') :
    Weaves r vs code (a + a') (b + b') := by
  obtain ⟨kept, rel, inserts⟩ := h
  obtain ⟨kept', rel', inserts'⟩ := h'
  exact ⟨kept + kept', rel.add rel', inserts.add inserts'⟩

theorem among (h : Weaves r vs code a b) (sub : vs ⊆ ws) : Weaves r ws code a b :=
  h.widen sub (.refl code)

theorem inside (h : Weaves r vs code a b) (stands : StandIn code code') : Weaves r vs code' a b :=
  h.widen (List.Subset.refl vs) stands

-- Nothing is declared where only expressions are redirected.
theorem anywhere (h : Weaves r vs [] a b) : Weaves r vs code a b :=
  h.inside (.of_subset (List.nil_subset code))

theorem append (h : Weaves r vs code a b) (h' : Weaves r ws code a' b') :
    Weaves r (vs ++ ws) code (a + a') (b + b') :=
  (h.among (List.subset_append_left ..)).add (h'.among (List.subset_append_right ..))

theorem then_inserts (h : Weaves r vs code a b)
    (h' : Inserts (Visit.InsertedFor r vs code) b c) : Weaves r vs code a c :=
  have ⟨kept, rel, inserts⟩ := h
  ⟨kept, rel, inserts.trans h'⟩

theorem call {e e' : Expr} (becomes : r.Retains vs e e') (rest : Weaves r vs code a b) :
    Weaves r vs code (e ::ₘ a) (e' ::ₘ b) := by
  obtain ⟨kept, rel, inserted, rfl, all⟩ := rest
  exact ⟨e' ::ₘ kept, .cons becomes rel, inserted, (Multiset.cons_add ..).symm, all⟩

end Weaves

end

namespace RedirectContext

open Visit

variable {σ : Type} [TypeOracle σ] {r : RedirectContext} {o : σ}

mutual

theorem value_weaves {t : TypedExpr} :
    (e : Expr) → r.value o e = .ok t →
      Weaves r (reads o e) [] (callsAmong e.accesses) (callsAmong t.expr.accesses)
  | .ident _ _, h | .literal _ _, h | .typeOperand _ _, h => by
    simp only [value, ok_pure] at h
    exact h ▸ .refl ..
  | .select span base member, h => by
    simp only [value, ok_bind] at h
    obtain ⟨b, hb, resolution, resolved, h⟩ := h
    have inner := (value_weaves base hb).among (List.subset_cons_self ⟨o, .read, span, base, member⟩ _)
    simp only [reads, Expr.accesses, callsAmong_select]
    cases resolution <;> obtain rfl := ok_pure.1 h
    case proxied info =>
      have call : InsertedFor r (⟨o, .read, span, base, member⟩ :: reads o base) []
          (info.read b.expr span).expr :=
        ⟨_, List.mem_cons_self .., b, info, ⟨hb, resolved⟩, rfl⟩
      simpa [FieldInfo.read, Expr.accesses, Expr.accessesOfList]
        using inner.then_inserts (.cons call (.refl ..))
    all_goals simpa [Expr.accesses] using inner
  | .call span callee typeArgs args, h => by
    simp only [value, ok_bind, ok_pure] at h
    obtain ⟨c, hc, as, ha, rfl⟩ := h
    have parts := (value_weaves callee hc).append (values_weaves args ha)
    simp only [reads, Expr.accesses, callsAmong_call, callsAmong_append]
    exact parts.call (.redirected (List.Subset.refl _) hc ha)
  | .index span base i, h => by
    simp only [value, ok_bind, ok_pure] at h
    obtain ⟨b, hb, i', hi, rfl⟩ := h
    simpa [reads, Expr.accesses] using (value_weaves base hb).append (value_weaves i hi)
  | .binary span op left right, h => by
    simp only [value, ok_bind, ok_pure] at h
    obtain ⟨a, ha, b, hb, rfl⟩ := h
    simpa [reads, Expr.accesses] using (value_weaves left ha).append (value_weaves right hb)
  | .unary span op operand, h => by
    simp only [value, ok_bind, ok_pure] at h
    obtain ⟨a, ha, rfl⟩ := h
    exact value_weaves (t := a) operand ha
  | .paren span inner, h => by
    simp only [value, ok_bind, ok_pure] at h
    obtain ⟨a, ha, rfl⟩ := h
    exact value_weaves (t := a) inner ha
  | .composite span type list, h => by
    simp only [value, ok_bind, ok_pure] at h
    obtain ⟨es, he, rfl⟩ := h
    exact elements_weaves list he

theorem values_weaves {ts : List TypedExpr} :
    (es : List Expr) → r.values o es = .ok ts →
      Weaves r (readsOfList o es) [] (callsAmong (Expr.accessesOfList es))
        (callsAmong (Expr.accessesOfList (ts.map (·.expr))))
  | [], h => by
    obtain rfl := ok_pure.1 h
    exact .refl ..
  | e :: rest, h => by
    simp only [values, ok_bind, ok_pure] at h
    obtain ⟨a, ha, as, has, rfl⟩ := h
    simpa [readsOfList, Expr.accessesOfList] using (value_weaves e ha).append (values_weaves rest has)

theorem elements_weaves {ts : List Element} :
    (es : List Element) → r.elements o es = .ok ts →
      Weaves r (readsOfElements o es) [] (callsAmong (Expr.accessesOfElements es))
        (callsAmong (Expr.accessesOfElements ts))
  | [], h => by
    obtain rfl := ok_pure.1 h
    exact .refl ..
  | .positional value :: rest, h => by
    simp only [elements, ok_bind, ok_pure] at h
    obtain ⟨a, ha, as, has, rfl⟩ := h
    simpa [readsOfElements, Expr.accessesOfElements]
      using (value_weaves value ha).append (elements_weaves rest has)
  | .keyed key value :: rest, h => by
    simp only [elements, ok_bind, ok_pure] at h
    obtain ⟨k, hk, a, ha, as, has, rfl⟩ := h
    simpa [readsOfElements, Expr.accessesOfElements, add_assoc] using
      ((value_weaves key hk).append (value_weaves value ha)).append (elements_weaves rest has)

end

end RedirectContext

-- The calls in what a target evaluates or names.
def Target.calls : Target → Multiset Expr
  | .field receiver _ => callsAmong receiver.accesses
  | .plain place => callsAmong place.accesses
  | .blank => 0

namespace RedirectContext

open Visit

variable {σ : Type} [TypeOracle σ] {r : RedirectContext} {o : σ}

theorem target_weaves {t : Target} :
    (e : Expr) → r.target o e = .ok t →
      Weaves r (writes o e) [] (callsAmong e.accesses) t.calls ∧
        ∀ receiver info, t = .field receiver info →
          ∃ v ∈ writes o e, ∃ base, v.use = .write ∧ v.Denotes r base info ∧ base.expr = receiver
  | .ident _ _, h => by
    simp only [target, ok_pure] at h
    subst h
    split
    · exact ⟨.refl .., by simp⟩
    · exact ⟨.refl .., by simp⟩
  | .paren _ inner, h => target_weaves inner (by simpa [target] using h)
  | .select span base member, h => by
    simp only [target, ok_bind] at h
    obtain ⟨b, hb, resolution, resolved, h⟩ := h
    have inner := (value_weaves base hb).among
      (List.subset_cons_self ⟨o, .write, span, base, member⟩ _)
    cases resolution <;> obtain rfl := ok_pure.1 h
    case proxied info =>
      refine ⟨by simpa [writes, Expr.accesses, Target.calls] using inner, fun _ _ same => ?_⟩
      cases same
      exact ⟨_, List.mem_cons_self .., b, rfl, ⟨hb, resolved⟩, rfl⟩
    all_goals
      exact ⟨by simpa [writes, Expr.accesses, Target.calls] using inner, by simp⟩
  | .literal _ _, h | .typeOperand _ _, h | .call _ _ _ _, h | .index _ _ _, h
  | .binary _ _ _ _, h | .unary _ _ _, h | .composite _ _ _, h => by
    simp only [target, ok_bind, ok_pure] at h
    obtain ⟨t, ht, rfl⟩ := h
    exact ⟨value_weaves _ ht, by simp⟩

theorem targets_weave {es : List Expr} {ts : List Target} (h : r.targets o es = .ok ts) :
    Weaves r (es.flatMap (writes o)) [] (callsAmong (es.flatMap Expr.accesses))
        (ts.map Target.calls).sum ∧
      ∀ receiver info, .field receiver info ∈ ts → ∃ v ∈ es.flatMap (writes o), ∃ base,
        v.use = .write ∧ v.Denotes r base info ∧ base.expr = receiver := by
  rw [targets, ok_mapM] at h
  induction h with
  | nil => exact ⟨.refl .., by simp⟩
  | @cons e t es ts head _ ih =>
    obtain ⟨first, denotes⟩ := target_weaves e head
    obtain ⟨rest, others⟩ := ih
    refine ⟨by simpa using first.append rest, fun receiver info mem => ?_⟩
    simp only [List.flatMap_cons, List.mem_append]
    rcases List.mem_cons.1 mem with same | mem
    · obtain ⟨v, hv, found⟩ := denotes receiver info same.symm
      exact ⟨v, .inl hv, found⟩
    · obtain ⟨v, hv, found⟩ := others receiver info mem
      exact ⟨v, .inr hv, found⟩

end RedirectContext

end FieldAccess
