import FieldAccess.Proofs.CallOrder
import FieldAccess.Proofs.SelectorWalk
import FieldAccess.Schema.Samples

namespace FieldAccess

namespace Stmt

-- The variables that a statement declares, with their values where these stand in pairs.
def defined : Stmt → List String
  | .assign _ targets .define _ => (targets.filterMap Expr.ident?).filter (· ≠ "_")
  | _ => []

def bound : Stmt → List (String × Expr)
  | .assign _ targets .define values => (targets.filterMap Expr.ident?).zip values
  | _ => []

def isExpr : Stmt → Bool
  | .expr _ => true
  | _ => false

-- Whether a statement assigns to anything but the blank name.
def assignsNamed : Stmt → Bool
  | .assign _ targets .assign _ => targets.any (!·.isBlank)
  | _ => false

end Stmt

namespace Target

-- The statement writes the field, on the receiver or on a variable that holds it.
def MutatedBy (settings : Settings) (span : Span) (bound : List (String × Expr)) :
    Target → Stmt → Prop
  | .field receiver info, s => ∃ place source,
      (place = receiver ∨ ∃ name, place = .ident span name ∧ (name, receiver) ∈ bound) ∧
      s = info.write settings place source span
  | _, _ => False

-- The expression is the target, with variables for the operands that call something.
def KeptAs (span : Span) (bound : List (String × Expr)) : Target → Expr → Prop
  | .plain place, e => place.PlaceKept span bound e
  | _, _ => False

end Target

-- The call is added by the write of a field among the targets.
def WriteCallAmong (settings : Settings) (ts : List Target) (c : Expr) : Prop :=
  ∃ receiver info, .field receiver info ∈ ts ∧ FieldInfo.WriteCall settings info c

-- What is emitted for an assignment of these values to these targets.
structure SplitInto (settings : Settings) (span : Span) (temps : Temporaries) (ts : List Target)
    (vs : List TypedExpr) (Reread : Expr → Prop) (emitted : List Stmt) : Prop where
  mutators : List.Forall₂ (Target.MutatedBy settings span (emitted.flatMap Stmt.bound))
    (ts.filter (·.isField)) (emitted.filter (·.isExpr))
  plain : if ts.any (·.isPlain) then
      ∃ places values, emitted.filter (·.assignsNamed) = [.assign span places .assign values] ∧
        places.length = values.length ∧
        List.Forall₂ (Target.KeptAs span (emitted.flatMap Stmt.bound)) (ts.filter (·.isPlain))
          (places.filter (!·.isBlank))
    else emitted.filter (·.assignsNamed) = []
  temporaries : (emitted.flatMap Stmt.defined).Nodup ∧
    ∀ name ∈ emitted.flatMap Stmt.defined, name ∉ temps.taken
  calls : Follows (fun c => Reread c ∨ WriteCallAmong settings ts c)
    (ts.flatMap Target.callsMade ++ vs.flatMap (·.expr.callsMade))
    (emitted.flatMap Stmt.callsMade)

namespace Target

-- What the capture of its operands makes of a target.
def CapturedIn (span : Span) (bound : List (String × Expr)) : Target → Target → Prop
  | .field receiver info, t => ∃ place, t = .field place info ∧
      (place = receiver ∨ ∃ name, place = .ident span name ∧ (name, receiver) ∈ bound)
  | .plain place, t => ∃ place', t = .plain place' ∧ place.PlaceKept span bound place' ∧
      (place.isBlank = false → place'.isBlank = false)
  | .blank, t => t = .blank

-- What the plan for a target is, in terms of the target as it was before anything was captured.
inductive PlannedAs (settings : Settings) (span : Span) (bound : List (String × Expr))
    (inPlace : Bool) : Target → TargetPlan → Prop
  | field {receiver info place source captured}
      (held : place = receiver ∨ ∃ name, place = .ident span name ∧ (name, receiver) ∈ bound)
      (silent : place.callsMade = [] ∧ source.expr.callsMade = []) :
      PlannedAs settings span bound inPlace (.field receiver info)
        { captured, mutator := some (info.write settings place source span) }
  | plain {place place' value captured} (kept : place.PlaceKept span bound place')
      (named : place.isBlank = false → place'.isBlank = false)
      (silent : place'.placeCalls = [] ∧ value.callsMade = []) :
      PlannedAs settings span bound inPlace (.plain place) { captured, plain := some (place', value) }
  | blank {captured} : PlannedAs settings span bound inPlace .blank { captured }
  | blankInPlace {value} (set : inPlace = true) (silent : value.callsMade = []) :
      PlannedAs settings span bound inPlace .blank { plain := some (.ident span "_", value) }

end Target

section

variable {settings : Settings} {span : Span} {s : Temporaries}

variable (span s) in
theorem captureTarget_takes (written : List String) (places : Bool) (t : Target)
    (covered : ∀ place, t = .plain place → places = true ∨ place.isCallFree) :
    let out := (captureTarget span written places t s).1
    t.CapturedIn span out.2.pairs out.1 ∧ out.1.callsMade = [] ∧ out.2.Takes t.callsMade := by
  intro out
  cases t with
  | blank => exact ⟨rfl, rfl, .none⟩
  | field receiver info =>
    simp only [out, captureTarget]
    split
    case isTrue stable =>
      have none := Expr.callsMade_of_isCallFree receiver (Expr.isCallFree_of_isStable stable)
      exact ⟨⟨receiver, rfl, .inl rfl⟩, none, by rw [Target.callsMade, none]; exact .none⟩
    case isFalse =>
      exact ⟨⟨_, rfl, .inr ⟨_, rfl, List.mem_singleton_self _⟩⟩, rfl, rfl, List.append_nil _⟩
  | plain place =>
    simp only [out, captureTarget]
    split
    case isTrue captures =>
      obtain ⟨kept, none, takes⟩ := capturePlace_takes span s place
      have calls : ¬place.isCallFree := by simpa using (Bool.and_eq_true_iff.1 captures).2
      exact ⟨⟨_, rfl, kept, fun _ => capturePlace_isBlank calls⟩, none, takes⟩
    case isFalse stays =>
      have free : place.isCallFree := by
        rcases covered place rfl with set | free
        · simpa [set] using stays
        · exact free
      have none := Expr.placeCalls_of_isCallFree free
      exact ⟨⟨place, rfl, .same none, id⟩, none, by rw [Target.callsMade, none]; exact .none⟩

-- The calls in the value of a target.
def callsOfValue (v : Option TypedExpr) : List Expr :=
  v.elim [] (·.expr.callsMade)

variable (span s) in
theorem captureValue_takes (hint : String) (v : Option TypedExpr) :
    let out := (captureValue span hint v s).1
    out.1.expr.callsMade = [] ∧ out.2.values.flatMap Expr.callsMade = callsOfValue v := by
  intro out
  cases v with
  | none => exact ⟨rfl, rfl⟩
  | some v =>
    simp only [out, captureValue]
    split
    case isTrue constant =>
      have free : v.expr.isCallFree := (Bool.and_eq_true_iff.1 constant).2
      have none := Expr.callsMade_of_isCallFree v.expr free
      exact ⟨none, none.symm⟩
    case isFalse => exact ⟨rfl, List.append_nil _⟩

theorem discard_takes (v : Option TypedExpr) :
    (discard v).values.flatMap Expr.callsMade = callsOfValue v := by
  cases v with
  | none => rfl
  | some v =>
    simp only [discard]
    split
    case isTrue free => exact (Expr.callsMade_of_isCallFree v.expr free).symm
    case isFalse => exact List.append_nil _

variable (settings span s) in
theorem planTarget_planned {bound : List (String × Expr)} {inPlace : Bool} {t t' : Target}
    (captured : t.CapturedIn span bound t') (silent : t'.callsMade = []) (v : Option TypedExpr)
    (free : inPlace = true → ∀ value, v = some value → value.expr.isCallFree) :
    let part := (planTarget settings span inPlace t' v s).1
    t.PlannedAs settings span bound inPlace part ∧
      part.captured.values.flatMap Expr.callsMade = callsOfValue v := by
  intro part
  -- A value that stays where it stands calls nothing.
  have stays {value : TypedExpr} (given : (if inPlace then v else none) = some value) :
      inPlace = true ∧ v = some value ∧ value.expr.callsMade = [] := by
    cases inPlace with
    | false => cases given
    | true => exact ⟨rfl, given, Expr.callsMade_of_isCallFree _ (free rfl _ given)⟩
  cases t with
  | blank =>
    obtain rfl := captured
    simp only [part, planTarget_blank]
    split
    case h_1 value given =>
      obtain ⟨set, rfl, none⟩ := stays given
      exact ⟨.blankInPlace set none, none.symm⟩
    case h_2 => exact ⟨.blank, discard_takes v⟩
  | plain place =>
    obtain ⟨place', rfl, kept, named⟩ := captured
    simp only [part, planTarget_plain]
    split
    case h_1 value given =>
      obtain ⟨_, rfl, none⟩ := stays given
      exact ⟨.plain kept named ⟨silent, none⟩, none.symm⟩
    case h_2 =>
      obtain ⟨none, takes⟩ := captureValue_takes span s place'.nameHint v
      exact ⟨.plain kept named ⟨silent, none⟩, takes⟩
  | field receiver info =>
    obtain ⟨place, rfl, held⟩ := captured
    obtain ⟨none, takes⟩ := captureValue_takes span s info.name v
    simp only [part, planTarget_field]
    exact ⟨.field held ⟨silent, none⟩, takes⟩

theorem Target.CapturedIn.mono {bound bound' : List (String × Expr)} {t t' : Target}
    (h : t.CapturedIn span bound t') (sub : bound ⊆ bound') : t.CapturedIn span bound' t' := by
  cases t with
  | blank => exact h
  | plain place =>
    obtain ⟨place', same, kept, named⟩ := h
    exact ⟨place', same, kept.mono sub, named⟩
  | field receiver info =>
    obtain ⟨place, same, held⟩ := h
    exact ⟨place, same, held.imp_right fun ⟨name, is, mem⟩ => ⟨name, is, sub mem⟩⟩

-- The operands of all targets are captured together, each as for its target alone.
theorem foldl_takes {ts : List Target} {operands : List (Target × Captured)}
    (each : List.Forall₂ (fun t operand => operand.2.Takes t.callsMade) ts operands)
    {start : Captured} {calls : List Expr} (takes : start.Takes calls) :
    let all := operands.foldl (· ++ ·.2) start
    all.Takes (calls ++ ts.flatMap Target.callsMade) ∧ start.pairs ⊆ all.pairs ∧
      ∀ operand ∈ operands, operand.2.pairs ⊆ all.pairs := by
  induction each generalizing start calls with
  | nil => exact ⟨by simpa using takes, List.Subset.refl _, List.forall_mem_nil _⟩
  | @cons t operand ts operands head _ ih =>
    obtain ⟨rest, sub, others⟩ := ih (takes.append head)
    rw [Captured.pairs_append takes.paired] at sub
    obtain ⟨before, this⟩ := List.append_subset.1 sub
    refine ⟨?_, before, List.forall_mem_cons.2 ⟨this, others⟩⟩
    simpa only [List.flatMap_cons, List.append_assoc, List.foldl_cons] using rest

variable (span s) in
theorem planOperands_takes (ts : List Target) (vs : List TypedExpr) :
    List.Forall₂ (fun t operand => t.CapturedIn span operand.2.pairs operand.1 ∧
      operand.1.callsMade = [] ∧ operand.2.Takes t.callsMade) ts (planOperands span ts vs s).1 := by
  unfold planOperands
  have each := forall₂_mapM (captureTarget span (planWritten ts)
    (ts.any (·.isPlain) && !planCallFree ts vs)) ts s
  refine ((List.forall₂_and_left ts _).2 ⟨fun t ht => ht, each⟩).imp fun t operand ⟨ht, s', made⟩ => ?_
  subst made
  refine captureTarget_takes span s' _ _ t fun place same => ?_
  subst same
  have plain : ts.any (·.isPlain) = true := List.any_eq_true.2 ⟨_, ht, rfl⟩
  rw [plain, Bool.true_and, Bool.not_eq_true', or_iff_not_imp_left, Bool.not_eq_false]
  intro free
  exact List.all_eq_true.1 (Bool.and_eq_true_iff.1 free).2 _ ht

theorem planned_of_operands {bound : List (String × Expr)} {inPlace : Bool} {ts : List Target}
    {operands : List Target} {sources : List (Option TypedExpr)} {parts : List TargetPlan}
    (each : List.Forall₂ (fun t t' => t.CapturedIn span bound t' ∧ t'.callsMade = []) ts operands)
    (length : operands.length = sources.length)
    (free : inPlace = true → ∀ v ∈ sources, ∀ value, v = some value → value.expr.isCallFree)
    (made : List.Forall₂ (fun pair part =>
      ∃ s, (planTarget settings span inPlace pair.1 pair.2 s).1 = part) (operands.zip sources) parts) :
    List.Forall₂ (Target.PlannedAs settings span bound inPlace) ts parts ∧
      (parts.flatMap (·.captured.values)).flatMap Expr.callsMade = sources.flatMap callsOfValue := by
  induction each generalizing sources parts with
  | nil =>
    obtain rfl := List.eq_nil_of_length_eq_zero length.symm
    cases made
    exact ⟨.nil, rfl⟩
  | @cons t t' ts operands head _ ih =>
    obtain ⟨v, sources, rfl⟩ := List.exists_cons_of_length_eq_add_one length.symm
    cases made with
    | cons first rest =>
      obtain ⟨s', rfl⟩ := first
      obtain ⟨planned, calls⟩ := planTarget_planned settings span s' head.1 head.2 v
        fun set => free set v (List.mem_cons_self ..)
      obtain ⟨plannedRest, callsRest⟩ := ih (Nat.succ.inj length)
        (fun set w hw => free set w (List.mem_cons_of_mem _ hw)) rest
      refine ⟨.cons planned plannedRest, ?_⟩
      rw [List.flatMap_cons, List.flatMap_append, calls, callsRest, List.flatMap_cons]

end

-- What the plans of all targets come to.
section

variable {settings : Settings} {span : Span} {bound : List (String × Expr)} {inPlace : Bool}
  {ts : List Target} {parts : List TargetPlan}
  (planned : List.Forall₂ (Target.PlannedAs settings span bound inPlace) ts parts)
include planned

theorem mutators_of_planned :
    List.Forall₂ (Target.MutatedBy settings span bound) (ts.filter (·.isField))
      (parts.filterMap (·.mutator)) := by
  induction planned with
  | nil => exact .nil
  | cons head _ ih =>
    cases head with
    | field held => exact .cons ⟨_, _, held, rfl⟩ ih
    | plain | blank | blankInPlace => exact ih

theorem places_of_planned (named : ∀ place, .plain place ∈ ts → place.isBlank = false) :
    List.Forall₂ (Target.KeptAs span bound) (ts.filter (·.isPlain))
      (((parts.filterMap (·.plain)).map (·.1)).filter (!·.isBlank)) := by
  induction planned with
  | nil => exact .nil
  | cons head _ ih =>
    have rest := ih fun place hp => named place (List.mem_cons_of_mem _ hp)
    cases head with
    | field | blank => exact rest
    | blankInPlace => exact rest
    | @plain place place' value captured kept stays =>
      have free := stays (named place (List.mem_cons_self ..))
      simp only [List.filterMap_cons, List.map_cons, List.filter_cons, free, Bool.not_false, if_true]
      exact .cons kept rest

theorem plain_of_planned :
    (∀ pair ∈ parts.filterMap (·.plain), pair.1.placeCalls = [] ∧ pair.2.callsMade = []) ∧
      (inPlace = false → ts.any (·.isPlain) = false → parts.filterMap (·.plain) = []) := by
  induction planned with
  | nil => exact ⟨List.forall_mem_nil _, fun _ _ => rfl⟩
  | cons head _ ih =>
    obtain ⟨silent, none⟩ := ih
    cases head with
    | field | blank => exact ⟨silent, fun set plain => none set plain⟩
    | plain _ _ calls => exact ⟨List.forall_mem_cons.2 ⟨calls, silent⟩, fun _ plain => by cases plain⟩
    | blankInPlace set calls =>
      exact ⟨List.forall_mem_cons.2 ⟨⟨rfl, calls⟩, silent⟩, fun out => by simp [set] at out⟩

theorem mutators_follow :
    Follows (WriteCallAmong settings ts) []
      ((parts.filterMap (·.mutator)).flatMap Stmt.callsMade) := by
  induction planned with
  | nil => exact .refl ..
  | @cons t part ts parts head _ ih =>
    have rest : Follows (WriteCallAmong settings (t :: ts)) [] _ := ih.mono
      fun c ⟨receiver, info, mem, call⟩ => ⟨receiver, info, List.mem_cons_of_mem t mem, call⟩
    cases head with
    | plain | blank | blankInPlace => exact rest
    | @field receiver info place source captured _ silent =>
      have write := write_follows settings span info source place
      rw [silent.1, silent.2] at write
      exact (write.mono fun c call => ⟨receiver, info, List.mem_cons_self .., call⟩).append rest

end

-- Captured operands and values are declared, or discarded, in the order in which they stand.
section

variable {span : Span} (c : Captured)

theorem statement?_callsMade :
    (c.statement? span).toList.flatMap Stmt.callsMade = c.values.flatMap Expr.callsMade := by
  have names : (c.names.map (Expr.ident span)).flatMap Expr.placeCalls = [] := by
    simp [List.flatMap_eq_nil_iff, Expr.placeCalls]
  unfold Captured.statement?
  dsimp only
  split
  · split
    case isTrue none => rw [List.isEmpty_iff.1 none]; rfl
    case isFalse => simp [Stmt.callsMade, names]
  · simp [Stmt.callsMade, names]

theorem filterMap_ident (names : List String) :
    (names.map (Expr.ident span)).filterMap Expr.ident? = names := by
  simp [List.filterMap_map, Function.comp_def, Expr.ident?]

theorem statement?_defined : (c.statement? span).toList.flatMap Stmt.defined = c.temps := by
  unfold Captured.statement?
  dsimp only
  split
  case isTrue blank =>
    have none : c.temps = [] := by simpa [Captured.temps, List.filter_eq_nil_iff] using blank
    split <;> exact none.symm
  case isFalse =>
    simp only [Option.toList_some, List.flatMap_singleton, Stmt.defined, filterMap_ident]
    rfl

theorem statement?_bound {pair : String × Expr} (mem : pair ∈ c.pairs) (named : pair.1 ≠ "_") :
    pair ∈ (c.statement? span).toList.flatMap Stmt.bound := by
  unfold Captured.statement?
  dsimp only
  split
  case isTrue blank =>
    have name := (List.of_mem_zip (a := pair.1) (b := pair.2) mem).1
    exact absurd (by simpa using List.all_eq_true.1 blank _ name) named
  case isFalse =>
    simp only [Option.toList_some, List.flatMap_singleton, Stmt.bound, filterMap_ident]
    exact mem

theorem statement?_quiet {s : Stmt} (h : s ∈ (c.statement? span).toList) :
    s.isExpr = false ∧ s.assignsNamed = false := by
  unfold Captured.statement? at h
  dsimp only at h
  split at h
  case isTrue blank =>
    split at h
    · cases h
    · obtain rfl := List.mem_singleton.1 h
      refine ⟨rfl, ?_⟩
      simpa [Stmt.assignsNamed, Expr.isBlank, Expr.ident?] using blank
  case isFalse =>
    obtain rfl := List.mem_singleton.1 h
    exact ⟨rfl, rfl⟩

end

-- The bindings of a plan: what is captured for operands stands first, then what is captured for
-- values or, if one call gives them all, that call.
section

variable {span : Span} {paired : Prop} [Decidable paired] {first second : Captured}
  {values : List Expr}

theorem planBindings_flatMap {α : Type} (f : Stmt → List α) :
    (planBindings span paired first second values).flatMap f =
      if paired then ((first ++ second).statement? span).toList.flatMap f
      else (first.statement? span).toList.flatMap f ++
        ((⟨second.names, values⟩ : Captured).statement? span).toList.flatMap f := by
  have all (cs : List Captured) : (cs.filterMap (·.statement? span)).flatMap f =
      cs.flatMap fun c => (c.statement? span).toList.flatMap f := by
    rw [List.filterMap_eq_flatMap_toList, List.flatMap_assoc]
  unfold planBindings
  split <;> simp [all]

theorem planBindings_callsMade :
    (planBindings span paired first second values).flatMap Stmt.callsMade =
      first.values.flatMap Expr.callsMade ++
        if paired then second.values.flatMap Expr.callsMade else values.flatMap Expr.callsMade := by
  rw [planBindings_flatMap]
  split <;> simp [statement?_callsMade]

theorem planBindings_defined :
    (planBindings span paired first second values).flatMap Stmt.defined =
      first.temps ++ second.temps := by
  rw [planBindings_flatMap]
  split <;> simp [statement?_defined, Captured.temps]

theorem planBindings_bound (lengths : first.names.length = first.values.length)
    {pair : String × Expr} (mem : pair ∈ first.pairs) (named : pair.1 ≠ "_") :
    pair ∈ (planBindings span paired first second values).flatMap Stmt.bound := by
  rw [planBindings_flatMap]
  split
  · refine statement?_bound _ ?_ named
    rw [Captured.pairs_append lengths]
    exact List.mem_append_left _ mem
  · exact List.mem_append_left _ (statement?_bound first mem named)

theorem planBindings_quiet {s : Stmt} (h : s ∈ planBindings span paired first second values) :
    s.isExpr = false ∧ s.assignsNamed = false := by
  obtain ⟨c, _, hc⟩ := List.mem_filterMap.1 h
  exact statement?_quiet c (Option.mem_toList.2 hc)

end

theorem planSources_callsMade (ts : List Target) (vs : List TypedExpr) :
    (planSources ts vs).flatMap callsOfValue =
      if ts.length = vs.length then vs.flatMap (·.expr.callsMade) else [] := by
  unfold planSources
  split
  · simp [List.flatMap_map, callsOfValue]
  · simp [List.flatMap_eq_nil_iff, callsOfValue]

namespace AssignPlan

variable {p : AssignPlan} {emitted : List Stmt}

-- How the parts of a plan that writes fields are put one after another: in a block the plain part
-- stands before the mutators, and in a header it runs after them. A header that keeps nothing is
-- empty.
inductive Laid (p : AssignPlan) : List Stmt → Prop
  | block : Laid p p.statements
  | emptied (span : Span) : Laid p (p.statements ++ [.empty span])
  | header (span : Span) : Laid p (p.bindings ++ p.mutators ++ [p.plain.getD (.empty span)])

-- What the emitted statements have is what the parts of the plan have, if the plain part and the
-- mutators do not both have some.
theorem Laid.flatMap {α : Type} (laid : p.Laid emitted) {f : Stmt → List α}
    (empty : ∀ span, f (.empty span) = [])
    (apart : p.plain.toList.flatMap f = [] ∨ p.mutators.flatMap f = []) :
    emitted.flatMap f =
      p.bindings.flatMap f ++ (p.plain.toList.flatMap f ++ p.mutators.flatMap f) := by
  have commute : p.mutators.flatMap f ++ p.plain.toList.flatMap f =
      p.plain.toList.flatMap f ++ p.mutators.flatMap f := by
    rcases apart with none | none <;> rw [none, List.nil_append, List.append_nil]
  cases laid with
  | block => simp only [statements, List.flatMap_append, List.append_assoc]
  | emptied span =>
    simp only [statements, List.flatMap_append, List.append_assoc, List.flatMap_singleton, empty,
      List.append_nil]
  | header span =>
    have kept : [p.plain.getD (.empty span)].flatMap f = p.plain.toList.flatMap f := by
      cases p.plain with
      | none => exact (List.append_nil _).trans (empty span)
      | some s => rfl
    rw [List.flatMap_append, List.flatMap_append, kept, List.append_assoc, commute]

theorem Laid.filter (laid : p.Laid emitted) {q : Stmt → Bool}
    (empty : ∀ span, q (.empty span) = false)
    (apart : p.plain.toList.filter q = [] ∨ p.mutators.filter q = []) :
    emitted.filter q = p.bindings.filter q ++ (p.plain.toList.filter q ++ p.mutators.filter q) := by
  simp only [← List.filterMap_eq_filter, List.filterMap_eq_flatMap_toList] at apart ⊢
  exact laid.flatMap (fun span => by simp [Option.guard, empty]) apart

-- The mutators of a plan are expressions, and nothing else in it is one; and what it declares stands
-- in its bindings.
structure Sorted (p : AssignPlan) : Prop where
  bindings : ∀ s ∈ p.bindings, s.isExpr = false
  plain : ∀ s, p.plain = some s → s.isExpr = false ∧ s.bound = []
  mutators : ∀ s ∈ p.mutators, ∃ e, s = .expr e

theorem Sorted.flatMap_mutators (h : p.Sorted) {α : Type} {f : Stmt → List α}
    (quiet : ∀ e, f (.expr e) = []) : p.mutators.flatMap f = [] := by
  refine List.flatMap_eq_nil_iff.2 fun s hs => ?_
  obtain ⟨e, rfl⟩ := h.mutators s hs
  exact quiet e

-- What is emitted for the plan declares what its bindings declare, and its expressions are the
-- mutators.
theorem Sorted.parts (h : p.Sorted) (laid : p.Laid emitted) :
    emitted.flatMap Stmt.bound = p.bindings.flatMap Stmt.bound ∧
      emitted.filter (·.isExpr) = p.mutators := by
  constructor
  · have mutators : p.mutators.flatMap Stmt.bound = [] := h.flatMap_mutators fun _ => rfl
    have plain : p.plain.toList.flatMap Stmt.bound = [] :=
      List.flatMap_eq_nil_iff.2 fun s hs => (h.plain s (Option.mem_toList.1 hs)).2
    rw [laid.flatMap (fun _ => rfl) (.inr mutators), mutators, plain, List.append_nil,
      List.append_nil]
  · have plain : p.plain.toList.filter (·.isExpr) = [] :=
      List.filter_eq_nil_iff.2 fun s hs => by simp [(h.plain s (Option.mem_toList.1 hs)).1]
    have bindings : p.bindings.filter (·.isExpr) = [] :=
      List.filter_eq_nil_iff.2 fun s hs => by simp [h.bindings s hs]
    have mutators : p.mutators.filter (·.isExpr) = p.mutators := by
      refine List.filter_eq_self.2 fun s hs => ?_
      obtain ⟨e, rfl⟩ := h.mutators s hs
      rfl
    rw [laid.filter (fun _ => rfl) (.inl plain), plain, bindings, mutators, List.nil_append,
      List.nil_append]

-- What a plan consists of.
structure Formed (settings : Settings) (span : Span) (temps : Temporaries) (ts : List Target)
    (vs : List TypedExpr) (Reread : Expr → Prop) (p : AssignPlan) : Prop where
  bindings : ∀ s ∈ p.bindings, s.isExpr = false ∧ s.assignsNamed = false
  mutators : List.Forall₂ (Target.MutatedBy settings span (p.bindings.flatMap Stmt.bound))
    (ts.filter (·.isField)) p.mutators
  plain : if ts.any (·.isPlain) then
      ∃ pairs : List (Expr × Expr),
        p.plain = some (.assign span (pairs.map (·.1)) .assign (pairs.map (·.2))) ∧
        (∀ pair ∈ pairs, pair.1.placeCalls = [] ∧ pair.2.callsMade = []) ∧
        List.Forall₂ (Target.KeptAs span (p.bindings.flatMap Stmt.bound)) (ts.filter (·.isPlain))
          ((pairs.map (·.1)).filter (!·.isBlank))
    else p.plain = none
  temporaries : (p.bindings.flatMap Stmt.defined).Nodup ∧
    ∀ name ∈ p.bindings.flatMap Stmt.defined, name ∉ temps.taken
  calls : Follows (fun c => Reread c ∨ WriteCallAmong settings ts c)
    (ts.flatMap Target.callsMade ++ vs.flatMap (·.expr.callsMade))
    (p.bindings.flatMap Stmt.callsMade ++ p.mutators.flatMap Stmt.callsMade)

namespace Formed

variable {settings : Settings} {span : Span} {temps : Temporaries} {ts : List Target}
  {vs : List TypedExpr} {Reread : Expr → Prop} (h : p.Formed settings span temps ts vs Reread)
include h

theorem mutators_ne_nil (field : ts.any (·.isField) = true) : p.mutators ≠ [] := by
  obtain ⟨t, ht, isField⟩ := List.any_eq_true.1 field
  obtain ⟨s, hs, _⟩ := exists_of_forall₂ h.mutators (List.mem_filter.2 ⟨ht, isField⟩)
  exact List.ne_nil_of_mem hs

-- Mutators are expressions and nothing else.
theorem mutator_cases {s : Stmt} (hs : s ∈ p.mutators) : ∃ e, s = .expr e := by
  obtain ⟨t, _, mutated⟩ := exists_of_forall₂ h.mutators.flip hs
  cases t with
  | field =>
    obtain ⟨_, _, _, rfl⟩ := mutated
    exact ⟨_, rfl⟩
  | plain | blank => cases mutated

-- The plain part neither declares nor calls anything.
theorem plain_cases {s : Stmt} (hs : p.plain = some s) :
    s.isExpr = false ∧ s.defined = [] ∧ s.bound = [] ∧ s.callsMade = [] := by
  have plain := h.plain
  split at plain
  case isFalse => simp [plain] at hs
  case isTrue =>
    obtain ⟨pairs, is, silent, _⟩ := plain
    obtain rfl := Option.some.inj (is.symm.trans hs)
    refine ⟨rfl, rfl, rfl, ?_⟩
    rw [Stmt.callsMade, List.flatMap_map, List.flatMap_map, List.append_eq_nil_iff,
      List.flatMap_eq_nil_iff, List.flatMap_eq_nil_iff]
    exact ⟨fun pair hp => (silent pair hp).1, fun pair hp => (silent pair hp).2⟩

theorem sorted : p.Sorted where
  bindings _ hs := (h.bindings _ hs).1
  plain _ hs := ⟨(h.plain_cases hs).1, (h.plain_cases hs).2.2.1⟩
  mutators _ hs := h.mutator_cases hs

-- However its parts are put together, they are what the assignment becomes.
theorem split (laid : p.Laid emitted) :
    SplitInto settings span temps ts vs Reread emitted := by
  have sorted := h.sorted
  obtain ⟨bound, exprs⟩ := sorted.parts laid
  have plainNone {α : Type} {f : Stmt → List α} (quiet : ∀ s, p.plain = some s → f s = []) :
      p.plain.toList.flatMap f = [] :=
    List.flatMap_eq_nil_iff.2 fun s hs => quiet s (Option.mem_toList.1 hs)
  have defined : emitted.flatMap Stmt.defined = p.bindings.flatMap Stmt.defined := by
    have none : p.mutators.flatMap Stmt.defined = [] := sorted.flatMap_mutators fun _ => rfl
    rw [laid.flatMap (fun _ => rfl) (.inr none), none,
      plainNone fun s hs => (h.plain_cases hs).2.1, List.append_nil, List.append_nil]
  have calls : emitted.flatMap Stmt.callsMade =
      p.bindings.flatMap Stmt.callsMade ++ p.mutators.flatMap Stmt.callsMade := by
    have quiet := plainNone fun s hs => (h.plain_cases hs).2.2.2
    rw [laid.flatMap (fun _ => rfl) (.inl quiet), quiet, List.nil_append]
  have assigns : emitted.filter (·.assignsNamed) = p.plain.toList.filter (·.assignsNamed) := by
    have quiet : p.mutators.filter (·.assignsNamed) = [] := by
      refine List.filter_eq_nil_iff.2 fun s hs => ?_
      obtain ⟨e, rfl⟩ := h.mutator_cases hs
      exact Bool.false_ne_true
    rw [laid.filter (fun _ => rfl) (.inr quiet), quiet, List.append_nil,
      List.filter_eq_nil_iff.2 fun s hs => by simp [(h.bindings s hs).2], List.nil_append]
  refine ⟨?_, ?_, defined ▸ h.temporaries, calls ▸ h.calls⟩
  · rw [exprs, bound]
    exact h.mutators
  · have plain := h.plain
    rw [assigns, bound]
    split at plain
    case isFalse out => rw [if_neg out, plain]; rfl
    case isTrue some =>
      rw [if_pos some]
      obtain ⟨pairs, is, _, kept⟩ := plain
      refine ⟨pairs.map (·.1), pairs.map (·.2), ?_, by rw [List.length_map, List.length_map], kept⟩
      -- A plain target has a name or an operand, so that the assignment is not to blanks alone.
      have named : (pairs.map (·.1)).any (!·.isBlank) = true := by
        obtain ⟨t, ht, isPlain⟩ := List.any_eq_true.1 some
        obtain ⟨e, he, _⟩ := exists_of_forall₂ kept (List.mem_filter.2 ⟨ht, isPlain⟩)
        obtain ⟨mem, blank⟩ := List.mem_filter.1 he
        exact List.any_eq_true.2 ⟨e, mem, blank⟩
      rw [is]
      exact List.filter_eq_self.2 (List.forall_mem_singleton.2 named)

end Formed

-- A field alone is written at once.
theorem formed_single (settings : Settings) (span : Span) (temps : Temporaries) (receiver : Expr)
    (info : FieldInfo) (value : TypedExpr) :
    Formed settings span temps [.field receiver info] [value] (fun _ => False)
      { mutators := [info.write settings receiver value span] } where
  bindings := List.forall_mem_nil _
  mutators := .cons ⟨receiver, value, .inl rfl, rfl⟩ .nil
  plain := rfl
  temporaries := ⟨List.nodup_nil, List.forall_mem_nil _⟩
  calls := by
    have write : Follows (fun c => False ∨ WriteCallAmong settings [.field receiver info] c) _ _ :=
      (write_follows settings span info value receiver).mono
        fun c call => .inr ⟨receiver, info, List.mem_singleton_self _, call⟩
    simpa [Target.callsMade] using write

-- A field that is read and written through one variable.
theorem formed_compound (settings : Settings) (span : Span) (temps : Temporaries) (receiver : Expr)
    (info : FieldInfo) (value : TypedExpr) (op : BinaryOp) (type : Option StaticType) :
    let place := Expr.ident span (Temporaries.fresh receiver.nameHint temps).1
    let read := info.read place span
    Formed settings span temps [.field receiver info] [value] (· = read.expr)
      { bindings := ((captureOperand span receiver temps).1.2.statement? span).toList
        mutators := [info.write settings place
          ⟨.binary span op read.expr (value.expr.asOperandOf op span), type⟩ span] } := by
  intro place read
  let captured := (captureOperand span receiver temps).1.2
  obtain ⟨free, named⟩ := (captureOperand_draws span receiver).fresh temps _ (List.mem_singleton_self _)
  have operand : (value.expr.asOperandOf op span).callsMade = value.expr.callsMade := by
    unfold Expr.asOperandOf
    split <;> rfl
  refine ⟨fun s hs => statement?_quiet captured hs, .cons ?_ .nil, rfl, ?_, ?_⟩
  · refine ⟨place, _, .inr ⟨_, rfl, ?_⟩, rfl⟩
    exact statement?_bound captured (List.mem_singleton_self _) named
  · have one : captured.temps = captured.names :=
      List.filter_eq_self.2 (List.forall_mem_singleton.2 (by simpa using named))
    rw [statement?_defined, one]
    exact ⟨List.nodup_singleton _, List.forall_mem_singleton.2 free⟩
  · have write :
        Follows (fun c => c = read.expr ∨ WriteCallAmong settings [.field receiver info] c) _ _ :=
      (write_follows settings span info
        ⟨.binary span op read.expr (value.expr.asOperandOf op span), type⟩ place).mono
        fun c call => .inr ⟨receiver, info, List.mem_singleton_self _, call⟩
    have read : (Expr.binary span op read.expr (value.expr.asOperandOf op span)).callsMade =
        read.expr :: value.expr.callsMade := by
      rw [Expr.callsMade, operand]
      rfl
    rw [read] at write
    have rest := write.drop (.inl rfl)
    have all := (Follows.refl _ receiver.callsMade).append rest
    rw [statement?_callsMade]
    simpa [captured, captureOperand, state_map, Target.callsMade, List.append_assoc] using all

-- The operands of the targets are captured in the bindings.
theorem operands_captured (settings : Settings) (span : Span) (temps : Temporaries)
    (ts : List Target) (vs : List TypedExpr) :
    let bindings := (planTargets settings span ts vs temps).1.bindings
    List.Forall₂ (fun t t' => t.CapturedIn span (bindings.flatMap Stmt.bound) t' ∧ t'.callsMade = [])
      ts ((planOperands span ts vs temps).1.map (·.1)) := by
  intro bindings
  let operands := (planOperands span ts vs temps).1
  have each := planOperands_takes span temps ts vs
  have fresh := (planParts_draws settings span ts vs temps).2.1
  obtain ⟨takes, -, pairs⟩ := foldl_takes (each.imp fun _ _ h => h.2.2) .none
  have bound : ∀ operand ∈ operands, operand.2.pairs ⊆ bindings.flatMap Stmt.bound := by
    intro operand ho pair mem
    have name : pair.1 ∈ operands.flatMap (·.2.names) :=
      List.mem_flatMap.2 ⟨operand, ho, (List.of_mem_zip (a := pair.1) (b := pair.2) mem).1⟩
    exact planBindings_bound takes.paired (pairs operand ho mem)
      (fresh pair.1 (List.mem_append_left _ name)).2
  have both := ((List.forall₂_and_left operands ts).2 ⟨fun _ ho => ho, each.flip⟩).flip
  refine List.forall₂_map_right_iff.2 (both.imp fun t operand ⟨ho, captured, silent, _⟩ => ?_)
  exact ⟨captured.mono (bound operand ho), silent⟩

-- Several targets or values.
theorem formed_split (settings : Settings) (span : Span) (temps : Temporaries) (ts : List Target)
    (vs : List TypedExpr) (named : ∀ place, .plain place ∈ ts → place.isBlank = false) :
    Formed settings span temps ts vs (fun _ => False) (planTargets settings span ts vs temps).1 := by
  let operands := (planOperands span ts vs temps).1
  let parts := (planParts settings span ts vs temps).1
  let first := operands.foldl (· ++ ·.2) ({} : Captured)
  let second := parts.foldl (· ++ ·.captured) ({} : Captured)
  let bindings := planBindings span (ts.length = vs.length) first second (vs.map (·.expr))
  let inPlace := ts.any (·.isPlain) && planCallFree ts vs
  have each := planOperands_takes span temps ts vs
  obtain ⟨-, fresh, nodup⟩ := planParts_draws settings span ts vs temps
  have takes := (foldl_takes (each.imp fun _ _ h => h.2.2) .none).1
  have targets : List.Forall₂ (fun t t' =>
      t.CapturedIn span (bindings.flatMap Stmt.bound) t' ∧ t'.callsMade = []) ts
      (operands.map (·.1)) := operands_captured settings span temps ts vs
  have free : inPlace = true → ∀ v ∈ planSources ts vs, ∀ value, v = some value →
      value.expr.isCallFree := by
    intro set v hv value is
    obtain ⟨both, -⟩ := Bool.and_eq_true_iff.1 (Bool.and_eq_true_iff.1 set).2
    obtain ⟨paired, all⟩ := Bool.and_eq_true_iff.1 both
    rw [planSources, if_pos (by simpa using paired)] at hv
    obtain ⟨value', mem, rfl⟩ := List.mem_map.1 hv
    exact Option.some.inj is ▸ List.all_eq_true.1 all value' mem
  have lengths : (operands.map (·.1)).length = (planSources ts vs).length := by
    rw [List.length_map, length_planOperands, length_planSources]
  have made : List.Forall₂ (fun pair part =>
      ∃ s, (planTarget settings span inPlace pair.1 pair.2 s).1 = part)
      ((operands.map (·.1)).zip (planSources ts vs)) parts := forall₂_mapM _ _ _
  obtain ⟨planned, values⟩ := planned_of_operands targets lengths free made
  obtain ⟨silent, none⟩ := plain_of_planned planned
  rw [planTargets_eq]
  refine ⟨fun s hs => planBindings_quiet hs, mutators_of_planned planned, ?_, ?_, ?_⟩
  · split
    case isTrue some =>
      have places := places_of_planned planned named
      have filled : ¬(parts.filterMap (·.plain)).isEmpty = true := by
        intro empty
        obtain ⟨t, ht, isPlain⟩ := List.any_eq_true.1 some
        obtain ⟨e, he, _⟩ := exists_of_forall₂ places (List.mem_filter.2 ⟨ht, isPlain⟩)
        rw [List.isEmpty_iff.1 empty] at he
        cases he
      have statement : plainStatement? span (parts.filterMap (·.plain)) = _ := if_neg filled
      exact ⟨parts.filterMap (·.plain), statement, silent, places⟩
    case isFalse out =>
      have out : ts.any (·.isPlain) = false := Bool.eq_false_iff.2 out
      have none := none (by simp only [inPlace, out, Bool.false_and]) out
      exact if_pos (List.isEmpty_iff.2 none)
  · have defined : bindings.flatMap Stmt.defined = planTemps settings span ts vs temps := by
      rw [planBindings_defined]
      exact temps_captured ..
    exact ⟨defined ▸ nodup, fun name mem => (fresh name (defined ▸ mem)).1⟩
  · have calls : bindings.flatMap Stmt.callsMade =
        ts.flatMap Target.callsMade ++ vs.flatMap (·.expr.callsMade) := by
      have second : second.values.flatMap Expr.callsMade = (planSources ts vs).flatMap callsOfValue := by
        rw [Captured.foldl_append_values, List.nil_append]
        exact values
      rw [planBindings_callsMade, takes.calls, second, planSources_callsMade, List.nil_append]
      split <;> simp [List.flatMap_map]
    change Follows _ _ (bindings.flatMap Stmt.callsMade ++ _)
    rw [calls]
    have added : Follows (fun c => False ∨ WriteCallAmong settings ts c) [] _ :=
      (mutators_follow planned).mono fun c call => .inr call
    have all := (Follows.refl _ (ts.flatMap Target.callsMade ++ vs.flatMap (·.expr.callsMade))).append
      added
    rwa [List.append_nil] at all

end AssignPlan

namespace RedirectContext

variable {σ : Type} [TypeOracle σ] {r : RedirectContext} {o : σ} {temps temps' : Temporaries}

-- What a statement becomes where it stands, in a block or in a header, in the order in which it runs.
inductive Emits (r : RedirectContext) (o : σ) (temps : Temporaries) (s : Stmt) : List Stmt → Prop
  | block {elseIf : Bool} {emitted : List Stmt} {temps' : Temporaries} :
      r.stmt o elseIf s temps = .ok (emitted, temps') → Emits r o temps s emitted
  | header {place : Header} {m : Relocated} {temps' : Temporaries} :
      r.header o place (some s) temps = .ok (m, temps') →
      Emits r o temps s (m.before ++ m.after ++ m.header.toList)

theorem laid_of_relocate {place : Header} {span : Span} {p : AssignPlan} {m : Relocated}
    (writes : p.mutators ≠ [] ∨ p.bindings = []) (h : r.relocate place span p = .ok m) :
    p.Laid (m.before ++ m.after ++ m.header.toList) := by
  by_cases none : p.mutators = []
  case pos =>
    have bindings := writes.resolve_left (· none)
    obtain rfl := ok_pure.1 ((if_pos (by simp [AssignPlan.writesFields, none])).symm.trans h)
    have statements : p.statements = p.plain.toList := by simp [AssignPlan.statements, none, bindings]
    exact statements ▸ .block
  case neg =>
    have writes : p.writesFields = true := by
      simpa [AssignPlan.writesFields, List.isEmpty_iff] using none
    have h := (if_neg (by simp [writes])).symm.trans h
    cases place with
    | elseIfInit => simp [fail, ok_throw] at h
    | forPost =>
      by_cases reads : p.readsBindings
      · obtain rfl := ok_pure.1 ((if_pos reads).symm.trans h)
        exact .emptied span
      · obtain rfl := ok_pure.1 ((if_neg reads).symm.trans h)
        exact .header span
    | ifInit | forInit | switchInit =>
      obtain rfl := ok_pure.1 h
      rw [List.append_nil]
      exact .header span

-- A statement that is planned is emitted as its plan is laid out.
theorem Emits.exists_laid {s : Stmt} {emitted : List Stmt} (h : Emits r o temps s emitted)
    {planned : Redirecting AssignPlan} {span : Span}
    (inBlock : ∀ elseIf, r.stmt o elseIf s = do return (← planned).statements)
    (inHeader : ∀ place, r.header o place (some s) = do r.relocate place span (← planned)) :
    ∃ p temps', planned temps = .ok (p, temps') ∧
      (p.mutators ≠ [] ∨ p.bindings = [] → p.Laid emitted) := by
  cases h with
  | block h =>
    simp only [inBlock, Redirecting.ok_bind, Redirecting.ok_pure] at h
    obtain ⟨p, temps', hp, rfl, rfl⟩ := h
    exact ⟨p, _, hp, fun _ => .block⟩
  | header h =>
    simp only [inHeader, Redirecting.ok_bind, Redirecting.ok_lift] at h
    obtain ⟨p, temps', hp, moved, _⟩ := h
    exact ⟨p, temps', hp, fun writes => laid_of_relocate writes moved⟩

theorem Emits.exists_plan {s : Stmt} {emitted : List Stmt} (h : Emits r o temps s emitted)
    {planned : Redirecting AssignPlan} {span : Span}
    (inBlock : ∀ elseIf, r.stmt o elseIf s = do return (← planned).statements)
    (inHeader : ∀ place, r.header o place (some s) = do r.relocate place span (← planned)) :
    ∃ p temps', planned temps = .ok (p, temps') ∧ (p.mutators ≠ [] → p.Laid emitted) :=
  have ⟨p, temps', hp, laid⟩ := h.exists_laid inBlock inHeader
  ⟨p, temps', hp, fun writes => laid (.inl writes)⟩

-- No target is left that is the blank name.
theorem isBlank_of_target {place : Expr} : (e : Expr) → r.target o e = .ok (.plain place) →
    place.isBlank = false
  | .ident span name, h => by
    have h := ok_pure.1 h
    split at h
    case isTrue => cases h
    case isFalse named =>
      obtain rfl := Target.plain.inj h
      simpa using named
  | .paren _ inner, h => isBlank_of_target inner h
  | .select span base member, h => by
    simp only [target, ok_bind] at h
    obtain ⟨_, _, resolution, _, h⟩ := h
    cases resolution with
    | proxied => cases ok_pure.1 h
    | direct | other =>
      obtain rfl := Target.plain.inj (ok_pure.1 h)
      rfl
  | .literal _ _, h | .typeOperand _ _, h | .call _ _ _ _, h | .index _ _ _, h | .binary _ _ _ _, h
  | .unary _ _ _, h | .composite _ _ _, h => by
    simp only [target, value, ok_bind, ok_pure] at h
    grind [Expr.isBlank, Expr.ident?]

theorem formed_planAssign {span : Span} {written values : List Expr} {p : AssignPlan}
    (h : r.planAssign o span written values temps = .ok (p, temps')) :
    ∃ ts vs, r.targets o written = .ok ts ∧ r.values o values = .ok vs ∧
      (ts.any (·.isField) → p.Formed r.settings span temps ts vs (fun _ => False)) := by
  obtain ⟨ts, vs, ht, hv, planned⟩ := planned_of_ok h
  refine ⟨ts, vs, ht, hv, fun field => ?_⟩
  cases planned with
  | kept noField => rw [noField] at field; cases field
  | single => exact AssignPlan.formed_single ..
  | split _ _ hp =>
    have named (place : Expr) (mem : .plain place ∈ ts) : place.isBlank = false := by
      obtain ⟨e, _, he⟩ := exists_of_forall₂ (ok_mapM.1 ht).flip mem
      exact isBlank_of_target e he
    have formed := AssignPlan.formed_split r.settings span temps ts vs named
    rwa [hp] at formed

theorem formed_planCompound {span : Span} {target value : Expr} {op : BinaryOp}
    {form : Expr → Expr → Stmt} {p : AssignPlan}
    (h : r.planCompound o span target op value form temps = .ok (p, temps')) :
    ∃ t v, r.target o target = .ok t ∧ r.value o value = .ok v ∧
      ∀ receiver info, t = .field receiver info → ∃ place,
        p.Formed r.settings span temps [t] [v] (· = (info.read place span).expr) := by
  simp only [planCompound, Redirecting.ok_bind, Redirecting.ok_lift] at h
  obtain ⟨t, _, ⟨ht, rfl⟩, v, _, ⟨hv, rfl⟩, h⟩ := h
  refine ⟨t, v, ht, hv, ?_⟩
  rintro receiver info rfl
  simp only [Redirecting.ok_bind, Redirecting.ok_lift, Redirecting.ok_modifyGet,
    Redirecting.ok_pure] at h
  obtain ⟨captured, _, hc, _, _, _, rfl, _⟩ := h
  obtain rfl := congrArg Prod.fst hc
  exact ⟨_, AssignPlan.formed_compound ..⟩

-- A statement that changes its one target by an operation with a value.
inductive Changes (span : Span) (target : Expr) : Stmt → Expr → Prop
  | compound (op : BinaryOp) (value : Expr) :
      Changes span target (.assign span [target] (.compound op) [value]) value
  | step (increment : Bool) :
      Changes span target (.step span target increment) (.literal span (.int 1))

theorem Emits.exists_planCompound {s : Stmt} {emitted : List Stmt} (h : Emits r o temps s emitted)
    {span : Span} {target value : Expr} (changes : Changes span target s value)
    (calls : ¬target.isCallFree) :
    ∃ op form p temps', r.planCompound o span target op value form temps = .ok (p, temps') ∧
      (p.mutators ≠ [] → p.Laid emitted) := by
  cases changes with
  | compound op value =>
    obtain ⟨p, temps', planned, laid⟩ := h.exists_plan (fun _ => by rw [stmt]) fun _ => rfl
    rw [plan, if_neg (by simpa [Stmt.areRepeatable] using calls)] at planned
    exact ⟨op, _, p, temps', planned, laid⟩
  | step increment =>
    obtain ⟨p, temps', planned, laid⟩ := h.exists_plan (fun _ => by rw [stmt]) fun _ => rfl
    rw [planStep, if_neg calls] at planned
    exact ⟨_, _, p, temps', planned, laid⟩

-- What is emitted for an assignment that writes fields: variables for operands and values, one
-- assignment to the targets that are no fields, if there are any, and one mutator for each field, in
-- order. All calls of the redirected operands stay, from left to right, and after them those of the
-- values; what is added is calls of mutators and conversions. A field whose target calls something
-- is changed in the same way, except that it is also read, through the variable.
theorem emitted_in_order {s : Stmt} {emitted : List Stmt} (h : Emits r o temps s emitted) :
    (∀ span written values, s = .assign span written .assign values →
      ∃ ts vs, r.targets o written = .ok ts ∧ r.values o values = .ok vs ∧
        (ts.any (·.isField) → SplitInto r.settings span temps ts vs (fun _ => False) emitted)) ∧
    ∀ span target value, Changes span target s value → ¬target.isCallFree →
      ∃ t v, r.target o target = .ok t ∧ r.value o value = .ok v ∧
        ∀ receiver info, t = .field receiver info → ∃ place,
          SplitInto r.settings span temps [t] [v] (· = (info.read place span).expr) emitted := by
  refine ⟨?_, fun span target value changes calls => ?_⟩
  · rintro span written values rfl
    obtain ⟨p, _, planned, laid⟩ := h.exists_plan (fun _ => by rw [stmt]) fun _ => rfl
    obtain ⟨ts, vs, ht, hv, formed⟩ := formed_planAssign planned
    refine ⟨ts, vs, ht, hv, fun field => ?_⟩
    exact (formed field).split (laid ((formed field).mutators_ne_nil field))
  · obtain ⟨op, form, p, _, planned, laid⟩ := h.exists_planCompound changes calls
    obtain ⟨t, v, ht, hv, formed⟩ := formed_planCompound planned
    refine ⟨t, v, ht, hv, ?_⟩
    rintro receiver info rfl
    obtain ⟨place, formed⟩ := formed receiver info rfl
    exact ⟨place, formed.split (laid (formed.mutators_ne_nil rfl))⟩

-- The method `func (c *Counter) Self() *Counter { return c }`.
def counterSelf : FuncDecl where
  doc := none
  receiver := some ⟨"c", .pointer (.named "Counter")⟩
  name := "Self"
  typeParams := []
  params := []
  results := [.pointer (.named "Counter")]
  body := .mk .nowhere [.ret .nowhere [.ident .nowhere "c"]]
  span := .nowhere

-- In a method of a counter with a list, `xs[f()], c.Self().value = g(), h()` becomes a declaration, an
-- assignment to the list and a call of the mutator, and `c.Self().value += g()` a declaration and a
-- call of the mutator.
theorem emitted_in_order_counter :
    let catalog := (Catalog.build .counter .standard {}).value
    let r : RedirectContext := ⟨"F", ⟨catalog, ["Counter"]⟩, .standard⟩
    let o : TypeContext := ⟨catalog, ⟨[counterSelf]⟩,
      [⟨"c", some (.pointer (.named "Counter"))⟩, ⟨"xs", some (.slice .int)⟩]⟩
    let call (callee : Expr) : Expr := .call .nowhere callee [] []
    let f (name : String) : Expr := call (.ident .nowhere name)
    let field : Expr :=
      .select .nowhere (call (.select .nowhere (.ident .nowhere "c") "Self")) "value"
    let element : Expr := .index .nowhere (.ident .nowhere "xs") (f "f")
    (∃ emitted ts vs, Emits r o ⟨[]⟩ (.assign .nowhere [element, field] .assign [f "g", f "h"]) emitted ∧
      emitted.length = 3 ∧ ts.map (·.isField) = [false, true] ∧
      SplitInto .standard .nowhere ⟨[]⟩ ts vs (fun _ => False) emitted) ∧
    ∃ emitted t v place, Emits r o ⟨[]⟩ (.assign .nowhere [field] (.compound .add) [f "g"]) emitted ∧
      emitted.length = 2 ∧ t.isField = true ∧
      ∃ info, SplitInto .standard .nowhere ⟨[]⟩ [t] [v] (· = (FieldInfo.read info place .nowhere).expr)
        emitted := by
  intro catalog r o call f field element
  refine ⟨?_, ?_⟩
  · obtain ⟨⟨emitted, temps⟩, ran⟩ : ∃ out, r.stmt o false
        (.assign .nowhere [element, field] .assign [f "g", f "h"]) ⟨[]⟩ = .ok out :=
      exists_ok (by decide +kernel)
    have length : (r.stmt o false (.assign .nowhere [element, field] .assign [f "g", f "h"])
        ⟨[]⟩).map (·.1.length) = .ok 3 := by decide +kernel
    have kinds : (r.targets o [element, field]).map (·.map (·.isField)) = .ok [false, true] := by
      decide +kernel
    have emits : Emits r o ⟨[]⟩ (.assign .nowhere [element, field] .assign [f "g", f "h"]) emitted :=
      .block ran
    obtain ⟨ts, vs, targets, -, splits⟩ := (emitted_in_order emits).1 _ _ _ rfl
    rw [ran] at length
    rw [targets] at kinds
    have kinds : ts.map (·.isField) = [false, true] := Except.ok.inj kinds
    have mem : true ∈ ts.map (·.isField) := by rw [kinds]; decide
    obtain ⟨t, ht, isField⟩ := List.mem_map.1 mem
    exact ⟨emitted, ts, vs, emits, Except.ok.inj length, kinds,
      splits (List.any_eq_true.2 ⟨t, ht, isField⟩)⟩
  · obtain ⟨⟨emitted, temps⟩, ran⟩ : ∃ out, r.stmt o false
        (.assign .nowhere [field] (.compound .add) [f "g"]) ⟨[]⟩ = .ok out :=
      exists_ok (by decide +kernel)
    have length : (r.stmt o false (.assign .nowhere [field] (.compound .add) [f "g"])
        ⟨[]⟩).map (·.1.length) = .ok 2 := by decide +kernel
    have kind : (r.target o field).map (·.isField) = .ok true := by decide +kernel
    have emits : Emits r o ⟨[]⟩ (.assign .nowhere [field] (.compound .add) [f "g"]) emitted :=
      .block ran
    obtain ⟨t, v, target, -, splits⟩ :=
      (emitted_in_order emits).2 _ _ _ (.compound .add (f "g")) (by decide)
    rw [ran] at length
    rw [target] at kind
    have isField : t.isField = true := Except.ok.inj kind
    cases t with
    | plain | blank => cases isField
    | field receiver info =>
      obtain ⟨place, split⟩ := splits receiver info rfl
      exact ⟨emitted, _, v, place, emits, Except.ok.inj length, rfl, info, split⟩

end RedirectContext

end FieldAccess
