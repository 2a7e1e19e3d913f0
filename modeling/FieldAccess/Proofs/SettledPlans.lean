import FieldAccess.Proofs.SettledTargets
import FieldAccess.Proofs.TemporaryNames

namespace FieldAccess

namespace RedirectContext

open TypeContext

variable {r : RedirectContext} {c c' : TypeContext} {span : Span} {member : String}
  {names : List String} {e : Expr}

-- The variables have the types of variables that start with the captured values.
def HeldIn (cap : Captured) (c c' : TypeContext) : Prop :=
  ∀ p ∈ cap.names.zip cap.values, c'.lookup? p.1 = c.variableType? p.2

-- Each variable holds one value, and that reads no new names.
structure CaptureSettled (r : RedirectContext) (c : TypeContext) (names : List String)
    (cap : Captured) : Prop where
  paired : cap.names.length = cap.values.length
  values : ∀ v ∈ cap.values, r.Settled c v ∧ v.names ⊆ names

theorem captureSettled_empty : r.CaptureSettled c names {} :=
  ⟨rfl, by simp⟩

theorem CaptureSettled.append {a b : Captured} (ha : r.CaptureSettled c names a)
    (hb : r.CaptureSettled c names b) : r.CaptureSettled c names (a ++ b) where
  paired := by simp [ha.paired, hb.paired]
  values v hv := (List.mem_append.1 hv).elim (ha.values v) (hb.values v)

theorem heldIn_append {a b : Captured} (paired : a.names.length = a.values.length) :
    HeldIn (a ++ b) c c' ↔ HeldIn a c c' ∧ HeldIn b c c' := by
  simp only [HeldIn, Captured.append_names, Captured.append_values, List.zip_append paired,
    List.forall_mem_append]

section

variable (span) (hr : r.scope.catalog = c.catalog) (sure : c.Unmistakable)
include hr sure

-- A variable that starts with a value has a member only if the value has it.
theorem Passes.variable {type : Option StaticType} (h : r.Passes type member) :
    r.Passes ((type.bind (·.default?)).map .known) member := by
  intro info found
  obtain ⟨known, entity, same, named, _, field⟩ := fieldOf?_eq_some found
  have basic {entity : String} (mem : entity ∈ ["int", "float64", "string", "bool"]) :
      r.scope.catalog.field? entity member = none := by
    rw [hr, Catalog.field?, sure.basic entity mem]
    rfl
  rcases type with _ | (type | _ | _ | _ | _ | _)
  · cases same
  · exact h info found
  · cases same
    cases named
    cases (basic (by simp)).symm.trans field
  · cases same
    cases named
    cases (basic (by simp)).symm.trans field
  · cases same
    cases named
    cases (basic (by simp)).symm.trans field
  · cases same
    cases named
    cases (basic (by simp)).symm.trans field
  · cases same

-- What stands in an operand's place, in a context in which the variables are declared.
def StandsFor (r : RedirectContext) (c c' : TypeContext) (e e' : Expr) : Prop :=
  r.Settled c' e' ∧ ∀ member, r.Passes (c.typeOf? e) member → r.Passes (c'.typeOf? e') member

theorem captureOperand_settled (h : r.Settled c e) (sub : e.names ⊆ names) (s : Temporaries) :
    let out := (captureOperand span e s).1
    r.CaptureSettled c names out.2 ∧ ∀ c', HeldIn out.2 c c' → r.StandsFor c c' e out.1 := by
  obtain ⟨name, captured⟩ : ∃ name, (captureOperand span e s).1 = (.ident span name, ⟨[name], [e]⟩) :=
    ⟨_, rfl⟩
  rw [captured]
  refine ⟨⟨rfl, by simpa using ⟨h, sub⟩⟩, fun c' held => ⟨.ident _, fun member passes => ?_⟩⟩
  have type : c'.typeOf? (.ident span name) = ((c.typeOf? e).bind (·.default?)).map .known := by
    rw [typeOf?, held (name, e) (by simp)]
    rfl
  rw [type]
  exact passes.variable hr sure

theorem captureCalling_settled (h : r.Settled c e) (sub : e.names ⊆ names) (s : Temporaries) :
    let out := (captureCalling span e s).1
    r.CaptureSettled c names out.2 ∧ ∀ c', Agrees names c c' → HeldIn out.2 c c' →
      r.StandsFor c c' e out.1 := by
  rw [captureCalling]
  split
  case isTrue =>
    refine ⟨captureSettled_empty, fun c' agrees _ => ⟨h.transfer agrees sub, fun member passes => ?_⟩⟩
    rw [state_pure, agrees.typeOf?_eq e sub]
    exact passes
  case isFalse =>
    obtain ⟨settled, stands⟩ := captureOperand_settled span hr sure h sub s
    exact ⟨settled, fun c' _ => stands c'⟩

theorem capturePlace_settled (h : r.PlaceSettled c e) (sub : e.names ⊆ names) (s : Temporaries) :
    let out := (capturePlace span e s).1
    r.CaptureSettled c names out.2 ∧ ∀ c', Agrees names c c' → HeldIn out.2 c c' →
      r.PlaceSettled c' out.1 := by
  have kept : r.CaptureSettled c names {} ∧ ∀ c', Agrees names c c' → HeldIn {} c c' →
      r.PlaceSettled c' e :=
    ⟨captureSettled_empty, fun c' agrees _ => h.transfer agrees sub⟩
  cases e with
  | paren => exact absurd h (target_ne_paren _)
  | select at_ base member =>
    obtain ⟨settled, passes⟩ := h.of_select hr
    obtain ⟨captured, stands⟩ := captureCalling_settled span hr sure settled sub s
    refine ⟨captured, fun c' agrees held => ?_⟩
    obtain ⟨settled, passed⟩ := stands c' agrees held
    exact .select (hr.trans agrees.catalog.symm) settled (passed member passes)
  | index at_ base i =>
    obtain ⟨hbase, hi⟩ := (h.settled hr rfl).of_index hr
    obtain ⟨subBase, subIndex⟩ := List.append_subset.1 sub
    obtain ⟨first, standsFirst⟩ := captureCalling_settled span hr sure hbase subBase s
    obtain ⟨second, standsSecond⟩ := captureCalling_settled span hr sure hi subIndex
      (captureCalling span base s).2
    refine ⟨first.append second, fun c' agrees held => ?_⟩
    obtain ⟨heldFirst, heldSecond⟩ := (heldIn_append first.paired).1 held
    exact .of_settled (.index (standsFirst c' agrees heldFirst).1
      (standsSecond c' agrees heldSecond).1) rfl
  | unary at_ op inner =>
    cases op with
    | deref =>
      obtain ⟨captured, stands⟩ := captureCalling_settled span hr sure
        ((h.settled hr rfl).of_unary hr) sub s
      exact ⟨captured, fun c' agrees held => .of_settled (.unary (stands c' agrees held).1) rfl⟩
    | _ => exact kept
  | _ => exact kept

-- The target of an assignment with what is captured for it. Unless places may be captured, only
-- receivers are.
structure OperandSettled (r : RedirectContext) (c : TypeContext) (names : List String) (places : Bool)
    (operand : Target × Captured) : Prop where
  captured : r.CaptureSettled c names operand.2
  held : ∀ c', Agrees names c c' → HeldIn operand.2 c c' → r.TargetSettled c' operand.1
  uncaptured : places = false → operand.1.isField = false → ∀ c', Agrees names c c' →
    r.TargetSettled c' operand.1

theorem captureTarget_settled (written : List String) (places : Bool) {t : Target}
    (h : r.TargetSettled c t) (sub : t.names ⊆ names) (s : Temporaries) :
    r.OperandSettled c names places (captureTarget span written places t s).1 := by
  have kept : r.OperandSettled c names places (t, {}) :=
    ⟨captureSettled_empty, fun c' agrees _ => h.transfer agrees sub,
      fun _ _ c' agrees => h.transfer agrees sub⟩
  cases t with
  | blank => exact kept
  | plain place =>
    rw [captureTarget]
    split
    case isTrue capturing =>
      obtain ⟨captured, held⟩ := capturePlace_settled span hr sure h sub s
      exact ⟨captured, held, fun none => by simp [none] at capturing⟩
    case isFalse => exact kept
  | field receiver info =>
    rw [captureTarget]
    split
    case isTrue => exact kept
    case isFalse =>
      obtain ⟨captured, stands⟩ := captureOperand_settled span hr sure h.settled sub s
      refine ⟨captured, fun c' _ held => ?_, fun _ plain => by cases plain⟩
      obtain ⟨settled, passed⟩ := stands c' held
      exact ⟨settled, passed _ h.reads, passed _ h.writes⟩

end

-- Redirection leaves the parts of a plan for one target as they are.
def PartSettled (r : RedirectContext) (c : TypeContext) (part : TargetPlan) : Prop :=
  (∀ p ∈ part.plain, r.Stays c p.1 ∧ r.Settled c p.2) ∧
    ∀ m ∈ part.mutator, r.StmtSettled c m ∧ ∃ e, m = .expr e

variable (span) in
theorem captureValue_settled (hint : String) {value : Option TypedExpr}
    (h : ∀ v ∈ value, r.Settled c v.expr ∧ v.expr.names ⊆ names) (s : Temporaries) :
    let out := (captureValue span hint value s).1
    (value.isSome → r.CaptureSettled c names out.2) ∧ ∀ c', Agrees names c c' →
      r.Settled c' out.1.expr := by
  cases value with
  | none => exact ⟨nofun, fun c' _ => .ident _⟩
  | some v =>
    obtain ⟨settled, sub⟩ := h v rfl
    rw [captureValue]
    split
    case isTrue => exact ⟨fun _ => captureSettled_empty, fun c' agrees => settled.transfer agrees sub⟩
    case isFalse =>
      exact ⟨fun _ => ⟨rfl, List.forall_mem_singleton.2 ⟨settled, sub⟩⟩, fun c' _ => .ident _⟩

variable (span) in
theorem planTarget_settled (hr : r.scope.catalog = c.catalog) (settings : Settings) (inPlace : Bool)
    (t : Target) {value : Option TypedExpr}
    (h : ∀ v ∈ value, r.Settled c v.expr ∧ v.expr.names ⊆ names) (s : Temporaries) :
    let out := (planTarget settings span inPlace t value s).1
    (value.isSome → r.CaptureSettled c names out.captured) ∧ (out.plain.isSome → t.isField = false) ∧
      ∀ c', Agrees names c c' → r.TargetSettled c' t → r.PartSettled c' out := by
  have inPlaceValue {v : TypedExpr} (hv : (if inPlace then value else none) = some v) :
      r.Settled c v.expr ∧ v.expr.names ⊆ names := by
    split at hv
    · exact h v hv
    · cases hv
  cases t with
  | field receiver info =>
    rw [planTarget_field]
    have ⟨captured, source⟩ := captureValue_settled span info.name h s
    refine ⟨captured, nofun, fun c' agrees ready => ⟨nofun, ?_⟩⟩
    rintro _ ⟨⟩
    exact ⟨write_settled (hr.trans agrees.catalog.symm) settings ready (source c' agrees), _, rfl⟩
  | plain place =>
    rw [planTarget_plain]
    split
    case h_1 v hv =>
      obtain ⟨settled, sub⟩ := inPlaceValue hv
      refine ⟨fun _ => captureSettled_empty, fun _ => rfl, fun c' agrees ready => ⟨?_, nofun⟩⟩
      rintro _ ⟨⟩
      exact ⟨PlaceSettled.stays ready, settled.transfer agrees sub⟩
    case h_2 =>
      have ⟨captured, source⟩ := captureValue_settled span place.nameHint h s
      refine ⟨captured, fun _ => rfl, fun c' agrees ready => ⟨?_, nofun⟩⟩
      rintro _ ⟨⟩
      exact ⟨PlaceSettled.stays ready, source c' agrees⟩
  | blank =>
    rw [planTarget_blank]
    split
    case h_1 v hv =>
      obtain ⟨settled, sub⟩ := inPlaceValue hv
      refine ⟨fun _ => captureSettled_empty, fun _ => rfl, fun c' agrees _ => ⟨?_, nofun⟩⟩
      rintro _ ⟨⟩
      exact ⟨stays_blank, settled.transfer agrees sub⟩
    case h_2 =>
      refine ⟨fun some => ?_, nofun, fun c' _ _ => ⟨nofun, nofun⟩⟩
      obtain ⟨v, rfl⟩ := Option.isSome_iff_exists.1 some
      change r.CaptureSettled c names (if v.expr.isCallFree then {} else ⟨["_"], [v.expr]⟩)
      split
      · exact captureSettled_empty
      · exact ⟨rfl, List.forall_mem_singleton.2 (h v rfl)⟩

end RedirectContext

namespace Captured

variable {names : List String} {cap : Captured} {span : Span}

theorem declareAll_statement? (c : TypeContext) :
    c.declareAll (cap.statement? span).toList =
      if cap.names.all (· = "_") then c
      else c.bindAll ((cap.names.zip (c.definedTypes cap.names.length cap.values)).map
        fun p => ⟨p.1, p.2⟩) := by
  unfold statement?
  split
  case isTrue => split <;> rfl
  case isFalse =>
    change c.bindAll (TypeContext.targetBindings _ _) = _
    rw [TypeContext.targetBindings_idents, List.length_map]

-- What is declared for captured values has new names.
theorem agrees_declareAll (c : TypeContext) (fresh : ∀ x ∈ cap.names, x = "_" ∨ x ∉ names) :
    c.Agrees names (c.declareAll (cap.statement? span).toList) := by
  rw [declareAll_statement?]
  split
  case isTrue => exact .refl names c
  case isFalse =>
    refine TypeContext.agrees_bindAll c fun b hb => ?_
    obtain ⟨p, hp, rfl⟩ := List.mem_map.1 hb
    exact fresh p.1 (List.of_mem_zip hp).1

theorem lookup?_declareAll (c : TypeContext) (paired : cap.names.length = cap.values.length)
    (distinct : cap.temps.Nodup) {p : String × Expr} (mem : p ∈ cap.names.zip cap.values)
    (named : p.1 ≠ "_") :
    (c.declareAll (cap.statement? span).toList).lookup? p.1 = c.variableType? p.2 := by
  have notBlank : ¬cap.names.all (· = "_") := fun blank =>
    named (by simpa using List.all_eq_true.1 blank _ (List.of_mem_zip mem).1)
  have types : c.definedTypes cap.names.length cap.values = cap.values.map c.variableType? := by
    rw [TypeContext.definedTypes, if_pos paired.symm]
  rw [declareAll_statement?, if_neg notBlank, types]
  refine TypeContext.lookup?_bindAll_zip distinct (p.1, c.variableType? p.2) ?_ named
  rw [List.zip_map_right]
  exact List.mem_map.2 ⟨p, mem, rfl⟩

theorem settles {r : RedirectContext} {c : TypeContext} (h : ∀ v ∈ cap.values, r.Settled c v) :
    r.Settles c (cap.statement? span).toList := by
  unfold statement?
  split
  case isTrue blank =>
    split
    case isTrue => trivial
    case isFalse =>
      refine ⟨.assign (fun e he => ?_) h, trivial⟩
      obtain ⟨x, hx, rfl⟩ := List.mem_map.1 he
      obtain rfl : x = "_" := by simpa using List.all_eq_true.1 blank x hx
      exact RedirectContext.stays_blank
  case isFalse => exact ⟨.define h, trivial⟩

end Captured

namespace RedirectContext

open TypeContext

variable {r : RedirectContext} {c c' : TypeContext} {span : Span} {own names : List String}

-- The parts of a plan are left as they are, one after the other. Variables are declared under new
-- names, and apart from these those that the assignment itself declares.
structure PlanSettled (r : RedirectContext) (c : TypeContext) (names : List String)
    (bs : List LocalBinding) (p : AssignPlan) : Prop where
  bindings : r.Settles c p.bindings
  fresh : c.Agrees names (c.declareAll p.bindings)
  plain : ∀ s ∈ p.plain, r.StmtSettled (c.declareAll p.bindings) s
  declares : p.plain.elim [] (c.declareAll p.bindings).bindingsOf = bs
  mutators : ∀ m ∈ p.mutators, r.StmtSettled (c.declareAll p.bindings) m ∧ ∃ e, m = .expr e
  alone : p.mutators ≠ [] → bs = []
  -- What is left of the assignment may stand before the bindings that it does not read.
  inPlace : p.readsBindings = false → ∀ s ∈ p.plain, r.StmtSettled c s

section

variable {α : Type} {f : α → Captured} {l : List α}

theorem captureSettled_foldl (h : ∀ a ∈ l, r.CaptureSettled c own (f a)) {cap : Captured}
    (hcap : r.CaptureSettled c own cap) :
    r.CaptureSettled c own (l.foldl (fun cap a => cap ++ f a) cap) := by
  induction l generalizing cap with
  | nil => exact hcap
  | cons a l ih => exact ih (fun a ha => h a (by simp [ha])) (hcap.append (h a (by simp)))

theorem heldIn_foldl (h : ∀ a ∈ l, r.CaptureSettled c own (f a)) {cap : Captured}
    (hcap : r.CaptureSettled c own cap)
    (held : HeldIn (l.foldl (fun cap a => cap ++ f a) cap) c c') :
    HeldIn cap c c' ∧ ∀ a ∈ l, HeldIn (f a) c c' := by
  induction l generalizing cap with
  | nil => exact ⟨held, by simp⟩
  | cons a l ih =>
    obtain ⟨first, rest⟩ := ih (fun a ha => h a (by simp [ha])) (hcap.append (h a (by simp))) held
    obtain ⟨hcap', ha⟩ := (heldIn_append hcap.paired).1 first
    exact ⟨hcap', List.forall_mem_cons.2 ⟨ha, rest⟩⟩

end

variable (span) in
-- What captured values start with is held from then on.
theorem capture_settled {cap : Captured} (hcap : r.CaptureSettled c own cap)
    (fresh : ∀ x ∈ cap.names, x = "_" ∨ x ∉ names) (distinct : cap.temps.Nodup)
    (agrees : c.Agrees own c') :
    r.Settles c' (cap.statement? span).toList ∧
      c'.Agrees names (c'.declareAll (cap.statement? span).toList) ∧
      ∀ p ∈ cap.names.zip cap.values, p.1 ≠ "_" →
        (c'.declareAll (cap.statement? span).toList).lookup? p.1 = c.variableType? p.2 := by
  refine ⟨Captured.settles fun v hv => ?_, Captured.agrees_declareAll c' fresh, fun p hp named => ?_⟩
  · exact (hcap.values v hv).1.transfer agrees (hcap.values v hv).2
  · exact (cap.lookup?_declareAll c' hcap.paired distinct hp named).trans
      (agrees.variableType?_eq (hcap.values p.2 (List.of_mem_zip hp).2).2)

variable (span) in
-- The operands are held from their binding on.
theorem planBindings_settled (paired : Prop) [Decidable paired] {first second : Captured}
    {values : List Expr} (hfirst : r.CaptureSettled c own first)
    (hsecond : paired → r.CaptureSettled c own second)
    (hvalues : ∀ v ∈ values, r.Settled c v ∧ v.names ⊆ own)
    (fresh : ∀ x ∈ first.names ++ second.temps, x ∉ names ∧ x ≠ "_")
    (distinct : (first.names ++ second.temps).Nodup) (sub : own ⊆ names) (agrees : c.Agrees own c') :
    r.Settles c' (planBindings span paired first second values) ∧
      c'.Agrees names (c'.declareAll (planBindings span paired first second values)) ∧
      HeldIn first c (c'.declareAll (planBindings span paired first second values)) := by
  have named : ∀ x ∈ first.names, x ≠ "_" := fun x hx => (fresh x (by simp [hx])).2
  have temps : first.temps = first.names := List.filter_eq_self.2 fun x hx => by simp [named x hx]
  have freshFirst : ∀ x ∈ first.names, x = "_" ∨ x ∉ names := fun x hx =>
    .inr (fresh x (by simp [hx])).1
  have freshSecond : ∀ x ∈ second.names, x = "_" ∨ x ∉ names := fun x hx =>
    or_iff_not_imp_left.2 fun hn => (fresh x (by simp [Captured.temps, hx, hn])).1
  unfold planBindings
  split
  case isTrue h =>
    have one : [first ++ second].filterMap (·.statement? span) =
        ((first ++ second).statement? span).toList := by
      cases he : (first ++ second).statement? span <;> simp [he]
    have split : (first ++ second).temps = first.names ++ second.temps := by
      rw [Captured.append_temps, temps]
    have freshBoth : ∀ x ∈ (first ++ second).names, x = "_" ∨ x ∉ names := fun x hx =>
      (List.mem_append.1 hx).elim (freshFirst x) (freshSecond x)
    obtain ⟨settles, after, held⟩ := capture_settled span (hfirst.append (hsecond h)) freshBoth
      (split ▸ distinct) agrees
    rw [one]
    refine ⟨settles, after, fun p hp => held p ?_ (named _ (List.of_mem_zip hp).1)⟩
    rw [Captured.append_names, Captured.append_values, List.zip_append hfirst.paired]
    exact List.mem_append_left _ hp
  case isFalse h =>
    let rest : Captured := ⟨second.names, values⟩
    have two : [first, rest].filterMap (·.statement? span) =
        (first.statement? span).toList ++ (rest.statement? span).toList := by
      cases he : first.statement? span <;> cases he' : rest.statement? span <;> simp [he, he']
    obtain ⟨settles, after, held⟩ := capture_settled span hfirst freshFirst
      (temps ▸ (List.nodup_append.1 distinct).1) agrees
    rw [two, declareAll_append, settles_append]
    refine ⟨⟨settles, Captured.settles fun v hv => ?_⟩, ?_, fun p hp => ?_⟩
    · exact (hvalues v hv).1.transfer (agrees.trans (after.mono sub)) (hvalues v hv).2
    · exact after.trans (Captured.agrees_declareAll _ freshSecond)
    · -- What holds the values is none of what holds the operands.
      have mem := (List.of_mem_zip hp).1
      have apart : ∀ x ∈ rest.names, x = "_" ∨ x ∉ first.names := fun x hx =>
        or_iff_not_imp_left.2 fun hn hf =>
          (List.nodup_append.1 distinct).2.2 x hf x (by simpa [Captured.temps, hn] using hx) rfl
      rw [(Captured.agrees_declareAll _ apart).lookup _ mem]
      exact held p hp (named _ mem)

theorem plainStatement?_settled {pairs : List (Expr × Expr)}
    (h : ∀ p ∈ pairs, r.Stays c p.1 ∧ r.Settled c p.2) :
    ∀ s ∈ plainStatement? span pairs, r.StmtSettled c s := by
  intro s hs
  unfold plainStatement? at hs
  split at hs
  case isTrue => cases hs
  case isFalse =>
    obtain rfl := Option.some.inj hs
    refine .assign (fun e he => ?_) fun e he => ?_
    · obtain ⟨p, hp, rfl⟩ := List.mem_map.1 he
      exact (h p hp).1
    · obtain ⟨p, hp, rfl⟩ := List.mem_map.1 he
      exact (h p hp).2

section

variable (span) (ts : List Target) (vs : List TypedExpr) (s : Temporaries)
  (hts : ∀ t ∈ ts, r.TargetSettled c t ∧ t.names ⊆ own)
  (hvs : ∀ v ∈ vs, r.Settled c v.expr ∧ v.expr.names ⊆ own)

include hts in
theorem planOperands_settled (hr : r.scope.catalog = c.catalog) (sure : c.Unmistakable) :
    ∀ o ∈ (planOperands span ts vs s).1,
      r.OperandSettled c own (ts.any (·.isPlain) && !planCallFree ts vs) o := by
  intro o ho
  obtain ⟨t, ht, s', rfl⟩ := mem_mapM ho
  exact captureTarget_settled span hr sure _ _ (hts t ht).1 (hts t ht).2 s'

include hvs in
theorem planParts_settled (hr : r.scope.catalog = c.catalog) (settings : Settings) :
    ∀ part ∈ (planParts settings span ts vs s).1,
      (ts.length = vs.length → r.CaptureSettled c own part.captured) ∧
      ∃ o ∈ (planOperands span ts vs s).1, (part.plain.isSome → o.1.isField = false) ∧
        ∀ c', Agrees own c c' → r.TargetSettled c' o.1 → r.PartSettled c' part := by
  intro part hp
  rw [planParts_eq] at hp
  obtain ⟨⟨t, value⟩, mem, s', rfl⟩ := mem_mapM hp
  obtain ⟨ht, hvalue⟩ := List.of_mem_zip mem
  obtain ⟨o, ho, rfl⟩ := List.mem_map.1 ht
  have fromValues : (∀ v ∈ value, v ∈ vs) ∧ (ts.length = vs.length → value.isSome) := by
    rw [planSources] at hvalue
    split at hvalue
    case isTrue =>
      obtain ⟨v, hv, rfl⟩ := List.mem_map.1 hvalue
      exact ⟨by simpa using hv, fun _ => rfl⟩
    case isFalse unpaired =>
      obtain ⟨_, _, rfl⟩ := List.mem_map.1 hvalue
      exact ⟨by simp, fun paired => absurd paired unpaired⟩
  obtain ⟨captured, plain, rest⟩ := planTarget_settled span hr settings
    (ts.any (·.isPlain) && planCallFree ts vs) o.1 (fun v hv => hvs v (fromValues.1 v hv)) s'
  exact ⟨fun paired => captured (fromValues.2 paired), o, ho, plain, rest⟩

include hts hvs in
theorem planTargets_settled (hr : r.scope.catalog = c.catalog) (sure : c.Unmistakable)
    (settings : Settings) (sub : own ⊆ names) (taken : names ⊆ s.taken) (agrees : c.Agrees own c') :
    r.PlanSettled c' names [] (planTargets settings span ts vs s).1 := by
  have operands := planOperands_settled span ts vs s hts hr sure
  have parts := planParts_settled span ts vs s hvs hr settings
  have captured : ∀ o ∈ (planOperands span ts vs s).1, r.CaptureSettled c own o.2 := fun o ho =>
    (operands o ho).captured
  obtain ⟨_, fresh, distinct⟩ := planParts_draws settings span ts vs s
  rw [planTargets_eq]
  let first := (planOperands span ts vs s).1.foldl (· ++ ·.2) ({} : Captured)
  let second := (planParts settings span ts vs s).1.foldl (· ++ ·.captured) ({} : Captured)
  have temps : first.names ++ second.temps = planTemps settings span ts vs s := by
    simp only [first, second, planTemps, Captured.temps, Captured.foldl_append_names,
      List.nil_append, List.filter_flatMap]
  have hfirst : r.CaptureSettled c own first := captureSettled_foldl captured captureSettled_empty
  have hsecond (paired : ts.length = vs.length) : r.CaptureSettled c own second :=
    captureSettled_foldl (fun part hp => (parts part hp).1 paired) captureSettled_empty
  have hvalues : ∀ v ∈ vs.map (·.expr), r.Settled c v ∧ v.names ⊆ own := by simpa using hvs
  have new : ∀ x ∈ first.names ++ second.temps, x ∉ names ∧ x ≠ "_" := fun x hx =>
    (fresh x (temps ▸ hx)).imp_left fun free hn => free (taken hn)
  obtain ⟨settles, agreesAfter, held⟩ := planBindings_settled span (ts.length = vs.length) hfirst
    hsecond hvalues new (temps ▸ distinct) sub agrees
  have after := agrees.trans (agreesAfter.mono sub)
  have ready : ∀ part ∈ (planParts settings span ts vs s).1, r.PartSettled
      (c'.declareAll (planBindings span (ts.length = vs.length) first second (vs.map (·.expr))))
      part := fun part hp => by
    obtain ⟨_, o, ho, _, rest⟩ := parts part hp
    exact rest _ after ((operands o ho).held _ after
      ((heldIn_foldl captured captureSettled_empty held).2 o ho))
  refine ⟨settles, agreesAfter, plainStatement?_settled fun p hp => ?_, ?_, fun m hm => ?_,
    fun _ => rfl, fun unread => plainStatement?_settled fun p hp => ?_⟩
  · obtain ⟨part, hpart, hp⟩ := List.mem_filterMap.1 hp
    exact (ready part hpart).1 p hp
  · change (plainStatement? _ _).elim [] _ = []
    unfold plainStatement?
    split <;> rfl
  · obtain ⟨part, hp, hm⟩ := List.mem_filterMap.1 hm
    exact (ready part hp).2 m hm
  · obtain ⟨part, hpart, hp⟩ := List.mem_filterMap.1 hp
    obtain ⟨_, o, ho, plain, rest⟩ := parts part hpart
    have noField := plain (Option.isSome_iff_exists.2 ⟨p, hp⟩)
    exact (rest c' agrees ((operands o ho).uncaptured unread noField c' agrees)).1 p hp

end

-- The shorthands that are left are those whose targets call something.
theorem not_repeatable {targets values : List Expr} {op : BinaryOp}
    (expanded : (Stmt.assign span targets (.compound op) values).expand =
      .assign span targets (.compound op) values) : Stmt.areRepeatable targets = false := by
  by_contra repeatable
  rw [Stmt.expand, if_pos (by simpa using repeatable)] at expanded
  injection expanded with _ _ same
  cases same

theorem calls_of_expanded {target : Expr} {increment : Bool}
    (expanded : (Stmt.step span target increment).expand = .step span target increment) :
    target.isCallFree = false := by
  by_contra free
  rw [Stmt.expand, if_pos (by simpa using free)] at expanded
  cases expanded

-- A target that calls something is not written twice, so a shorthand for it stays one.
theorem planCompound_stays {e v : Expr} (h : r.Stays c e) (hv : r.Settled c v) (op : BinaryOp)
    (form : Expr → Expr → Stmt) (temps : Temporaries) :
    r.planCompound c span e op v form temps = .ok (.keep (form e v), temps) := by
  obtain ⟨t, ht, plain, same⟩ := h
  simp only [planCompound, Redirecting.ok_bind, Redirecting.ok_lift]
  refine ⟨t, _, ⟨ht, rfl⟩, _, _, ⟨hv, rfl⟩, ?_⟩
  cases t with
  | field => cases plain
  | blank => exact congrArg (fun e => Except.ok (AssignPlan.keep (form e v), temps)) same
  | plain place => exact congrArg (fun e => Except.ok (AssignPlan.keep (form e v), temps)) same

theorem StmtSettled.compound {e v : Expr} (h : r.Stays c e) (calls : e.isCallFree = false)
    (hv : r.Settled c v) (op : BinaryOp) : r.StmtSettled c (.assign span [e] (.compound op) [v]) := by
  have once : Stmt.areRepeatable [e] = false := by simp [Stmt.areRepeatable, calls]
  refine .of_plan (by simp [Stmt.expand, once]) fun temps => ?_
  simp only [plan, once, Bool.false_eq_true, if_false]
  exact planCompound_stays h hv op _ temps

theorem StmtSettled.step {e : Expr} (h : r.Stays c e) (calls : e.isCallFree = false)
    (increment : Bool) : r.StmtSettled c (.step span e increment) := by
  have planned (temps : Temporaries) : r.planStep c span e increment temps =
      .ok (.keep (.step span e increment), temps) := by
    simp only [planStep, calls, Bool.false_eq_true, if_false]
    exact planCompound_stays h (.literal _) _ _ temps
  refine ⟨by simp [Stmt.expand, calls], fun _ temps => ?_, fun _ temps => ?_⟩
  · simp only [RedirectContext.stmt, Redirecting.ok_bind, Redirecting.ok_pure]
    exact ⟨_, _, planned temps, rfl, rfl⟩
  · simp only [RedirectContext.header, Redirecting.ok_bind, Redirecting.ok_lift]
    exact ⟨_, _, planned temps, rfl, rfl⟩

theorem planSettled_keep {s : Stmt} {bs : List LocalBinding} (h : r.StmtSettled c s)
    (declares : c.bindingsOf s = bs) : r.PlanSettled c names bs (.keep s) where
  bindings := trivial
  fresh := .refl names c
  plain := by
    rintro _ ⟨⟩
    exact h
  declares := declares
  mutators := nofun
  alone := absurd rfl
  inPlace _ := by
    rintro _ ⟨⟩
    exact h

section

variable {r' : RedirectContext} {temps temps' : Temporaries} {p : AssignPlan}
  {targets values : List Expr} (within : r'.Within r c.catalog) (sure : c.Unmistakable)
  (sub : own ⊆ names) (taken : names ⊆ temps.taken) (agrees : c.Agrees own c')

include agrees in
theorem becomes_all {vs : List TypedExpr} (hvs : List.Forall₂ (r.Becomes c) values vs)
    (hown : namesOfExprs values ⊆ own) : ∀ e ∈ vs.map (·.expr), r.Settled c' e := fun e he =>
  (Becomes.all_settled hvs e he).transfer agrees
    (List.Subset.trans (subset_of_mem he) (List.Subset.trans (Becomes.all_names hvs) hown))

include agrees in
theorem stays_all {ts : List Target} (hts : List.Forall₂ (r.TargetBecomes c) targets ts)
    (noField : ts.any (·.isField) = false) (hown : namesOfExprs targets ⊆ own) :
    ∀ e ∈ ts.zipWith (fun t e => t.place e) targets, r.Stays c' e := by
  induction hts with
  | nil => simp
  | cons first _ ih =>
    obtain ⟨hfirst, hrest⟩ := List.append_subset.1 hown
    obtain ⟨plain, plains⟩ := Bool.or_eq_false_iff.1 noField
    obtain ⟨stays, names, _⟩ := first.stays plain
    exact List.forall_mem_cons.2
      ⟨stays.transfer agrees (List.Subset.trans names hfirst), ih plains hrest⟩

include within sure sub taken agrees in
theorem planAssign_settled (h : r.planAssign c span targets values temps = .ok (p, temps'))
    (hown : namesOfExprs targets ++ namesOfExprs values ⊆ own) :
    r'.PlanSettled c' names [] p ∧ temps.taken ⊆ temps'.taken := by
  obtain ⟨ts, vs, ht, hv, planned⟩ := planned_of_ok h
  obtain ⟨ownTargets, ownValues⟩ := List.append_subset.1 hown
  have hvs := values_become within sure values vs hv
  rw [RedirectContext.targets, ok_mapM] at ht
  have hts := ht.imp fun e t h => target_becomes within sure e t h
  cases planned with
  | kept noField =>
    have settled : r'.StmtSettled c' (.assign span _ .assign _) :=
      .assign (stays_all agrees hts noField ownTargets) (becomes_all agrees hvs ownValues)
    exact ⟨planSettled_keep settled rfl, List.Subset.refl _⟩
  | @single receiver info value =>
    obtain ⟨e, he, target⟩ := exists_of_forall₂ hts.flip (List.mem_singleton_self _)
    have ready := target.settled.transfer agrees
      (List.Subset.trans target.names (List.Subset.trans (subset_of_mem he) ownTargets))
    have settled := becomes_all agrees hvs ownValues value.expr (by simp)
    have write : r'.StmtSettled c' (info.write r.settings receiver value span) :=
      write_settled (within.inner.trans agrees.catalog.symm) r.settings ready settled
    refine ⟨⟨trivial, .refl names c', by simp, rfl, fun m hm => ?_, fun _ => rfl, by simp⟩,
      List.Subset.refl _⟩
    obtain rfl := List.mem_singleton.1 hm
    exact ⟨write, _, rfl⟩
  | split _ _ made =>
    have settled := planTargets_settled span _ _ temps
      (fun t hm => by
        obtain ⟨e, he, becomes⟩ := exists_of_forall₂ hts.flip hm
        exact ⟨becomes.settled, List.Subset.trans becomes.names
          (List.Subset.trans (subset_of_mem he) ownTargets)⟩)
      (fun v hm => by
        obtain ⟨e, he, becomes⟩ := exists_of_forall₂ hvs.flip hm
        exact ⟨becomes.settled, List.Subset.trans becomes.names
          (List.Subset.trans (subset_of_mem he) ownValues)⟩)
      within.inner sure r.settings sub taken agrees
    have mono := (planParts_draws r.settings span ts vs temps).1
    have same : (planParts r.settings span ts vs temps).2 = temps' := congrArg Prod.snd made
    rw [made] at settled
    exact ⟨settled, same ▸ mono⟩

include within sure sub taken agrees in
theorem planCompound_settled {target v : Expr} {op : BinaryOp} {form : Expr → Expr → Stmt}
    (h : r.planCompound c span target op v form temps = .ok (p, temps'))
    (hown : target.names ++ v.names ⊆ own)
    (kept : ∀ e v, r'.Stays c' e → (e.isCallFree → target.isCallFree) → r'.Settled c' v →
      r'.StmtSettled c' (form e v) ∧ c'.bindingsOf (form e v) = []) :
    r'.PlanSettled c' names [] p ∧ temps.taken ⊆ temps'.taken := by
  obtain ⟨ownTarget, ownValue⟩ := List.append_subset.1 hown
  simp only [planCompound, Redirecting.ok_bind, Redirecting.ok_lift] at h
  obtain ⟨t, _, ⟨ht, rfl⟩, v', _, ⟨hv, rfl⟩, h⟩ := h
  have ht := target_becomes within sure target t ht
  have hv := value_becomes within sure v v' hv
  have settled := hv.settled.transfer agrees (List.Subset.trans hv.names ownValue)
  have other (plain : t.isField = false) (hp : p = .keep (form (t.place target) v'.expr)) :
      r'.PlanSettled c' names [] p := by
    obtain ⟨stays, namesPlace, callFree⟩ := ht.stays plain
    have := kept _ _ (stays.transfer agrees (List.Subset.trans namesPlace ownTarget)) callFree settled
    exact hp ▸ planSettled_keep this.1 this.2
  cases t with
  | blank =>
    obtain ⟨hp, same⟩ := Redirecting.ok_pure.1 h
    exact ⟨other rfl hp.symm, same ▸ List.Subset.refl _⟩
  | plain place =>
    obtain ⟨hp, same⟩ := Redirecting.ok_pure.1 h
    exact ⟨other rfl hp.symm, same ▸ List.Subset.refl _⟩
  | field receiver info =>
    simp only [Redirecting.ok_bind, Redirecting.ok_lift, Redirecting.ok_modifyGet,
      Redirecting.ok_pure] at h
    obtain ⟨⟨temp, cap⟩, _, hc, _, _, ⟨_, rfl⟩, hp, rfl⟩ := h
    have captured : (captureOperand span receiver temps).1 = (temp, cap) := congrArg Prod.fst hc
    obtain ⟨hcap, stands⟩ := captureOperand_settled span within.inner sure
      ht.settled.settled (List.Subset.trans ht.names ownTarget) temps
    have draws := captureOperand_draws span receiver
    have mono := draws.mono temps
    have fresh := draws.fresh temps
    have distinct := draws.nodup temps
    rw [captured] at hcap stands fresh distinct
    rw [hc] at mono
    obtain ⟨settles, after, held⟩ := capture_settled span hcap
      (fun x hx => .inr fun mem => (fresh x hx).1 (taken mem)) (distinct.filter _) agrees
    obtain ⟨settledTemp, passed⟩ := stands _ fun p hp =>
      held p hp (fresh p.1 (List.of_mem_zip hp).1).2
    have again := within.inner.trans (agrees.trans (after.mono sub)).catalog.symm
    have operand : r'.Settled (c'.declareAll (cap.statement? span).toList)
        (v'.expr.asOperandOf op span) := by
      have := settled.transfer after (List.Subset.trans (List.Subset.trans hv.names ownValue) sub)
      unfold Expr.asOperandOf
      split
      · exact this.paren
      · exact this
    have read : r'.Settled (c'.declareAll (cap.statement? span).toList) (info.read temp span).expr :=
      .call (.select again settledTemp (passed _ ht.settled.reads)) (by simp)
    subst hp
    refine ⟨⟨settles, after, by simp, rfl, fun m hm => ?_, fun _ => rfl, by simp⟩, mono⟩
    obtain rfl := List.mem_singleton.1 hm
    exact ⟨write_settled again r.settings ⟨settledTemp, passed _ ht.settled.reads,
      passed _ ht.settled.writes⟩ (read.binary operand), _, rfl⟩

include agrees in
theorem definedTypes_becomes {vs : List TypedExpr} (hvs : List.Forall₂ (r.Becomes c) values vs)
    (hown : namesOfExprs values ⊆ own) (count : Nat) :
    c'.definedTypes count (vs.map (·.expr)) = c.definedTypes count values := by
  refine definedTypes_congr ?_ count
  induction hvs with
  | nil => exact .nil
  | cons first _ ih =>
    obtain ⟨ownFirst, ownRest⟩ := List.append_subset.1 hown
    have sub := List.Subset.trans first.names ownFirst
    refine .cons ⟨?_, first.index, (agrees.callResults?_eq sub).trans first.results⟩ (ih ownRest)
    exact (agrees.variableType?_eq sub).trans first.variableType?_eq

include within sure sub taken agrees in
theorem plan_settled {op : AssignOp} (h : r.plan c span targets op values temps = .ok (p, temps'))
    (expanded : (Stmt.assign span targets op values).expand = .assign span targets op values)
    (hown : namesOfExprs targets ++ namesOfExprs values ⊆ own) :
    r'.PlanSettled c' names (c.bindingsOf (.assign span targets op values)) p ∧
      temps.taken ⊆ temps'.taken := by
  cases op with
  | assign => exact planAssign_settled within sure sub taken agrees h hown
  | define =>
    simp only [plan, Redirecting.ok_bind, Redirecting.ok_lift, Redirecting.ok_pure] at h
    obtain ⟨vs, _, ⟨hv, rfl⟩, rfl, rfl⟩ := h
    have hvs := values_become within sure values vs hv
    have ownValues := (List.append_subset.1 hown).2
    refine ⟨planSettled_keep (.define (becomes_all agrees hvs ownValues)) ?_, List.Subset.refl _⟩
    simp only [bindingsOf, definedTypes_becomes agrees hvs ownValues]
  | compound op =>
    have once := not_repeatable expanded
    simp only [plan, once, Bool.false_eq_true, if_false] at h
    split at h
    case h_1 target v =>
      have calls : target.isCallFree = false := by simpa [Stmt.areRepeatable] using once
      exact planCompound_settled within sure sub taken agrees h
        (by simpa [namesOfExprs] using hown)
        fun e v stays callFree hv => ⟨.compound stays (by simpa [calls] using callFree) hv op, rfl⟩
    case h_2 targets values several =>
      obtain ⟨rfl, rfl⟩ := Redirecting.ok_pure.1 h
      refine ⟨planSettled_keep (.of_plan expanded fun temps => ?_) rfl, List.Subset.refl _⟩
      simp only [plan, once, Bool.false_eq_true, if_false]
      rfl

include within sure sub taken agrees in
theorem planStep_settled {target : Expr} {increment : Bool}
    (h : r.planStep c span target increment temps = .ok (p, temps'))
    (expanded : (Stmt.step span target increment).expand = .step span target increment)
    (hown : target.names ⊆ own) :
    r'.PlanSettled c' names [] p ∧ temps.taken ⊆ temps'.taken := by
  have calls := calls_of_expanded expanded
  simp only [planStep, calls, Bool.false_eq_true, if_false] at h
  exact planCompound_settled within sure sub taken agrees h (by simpa [Expr.names] using hown)
    fun e v stays callFree _ => ⟨.step stays (by simpa [calls] using callFree) increment, rfl⟩

end

end RedirectContext

end FieldAccess
