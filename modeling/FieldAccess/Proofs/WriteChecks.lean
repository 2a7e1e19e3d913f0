import FieldAccess.Proofs.AssignmentShape
import FieldAccess.Proofs.GraphPlans
import FieldAccess.Proofs.InsertedCalls

namespace FieldAccess

namespace FieldInfo

-- The types of the values that the mutator of a field takes, as they are or converted.
def Fits (info : FieldInfo) (type : TypeExpr) : Prop :=
  match info.classification? with
  | some (.primitive _ _) => info.declaredType? = some type ∨ info.declaredType? = some .any
  | some (.relation .single target) => type = .pointer (.named target)
  | some (.relation .multi target) => type = .slice (.pointer (.named target))
  | some (.enumeration .single enum) => type = .int ∨ type = .named enum
  | some (.enumeration .multi enum) => type = .slice .int ∨ type = .slice (.named enum)
  | none => False

-- The type is that of one option, where the field holds many.
def OptionOfMany (info : FieldInfo) (type : TypeExpr) : Prop :=
  ∃ enum, info.classification? = some (.enumeration .multi enum) ∧ type = .named enum

namespace Backed

variable {settings : Settings} {enums : EnumTable} {info : FieldInfo} {class_ : Classification}
  {type : TypeExpr}

theorem declaredType?_isSome (backed : info.Backed settings enums class_) :
    ∃ type, info.declaredType? = some type := by
  cases backed with
  | primitive parsed | relation _ _ parsed | enumeration _ _ _ _ _ _ parsed =>
    exact ⟨_, by rw [declaredType?, parsed]; rfl⟩

-- The values of an enumeration are declared as integers.
theorem declaredType?_single {enum : String}
    (backed : info.Backed settings enums (.enumeration .single enum)) :
    info.declaredType? = some .int := by
  cases backed with
  | enumeration _ _ _ _ _ _ parsed shape =>
    rw [declaredType?, parsed]
    unfold Field.enumMultiplicity? at shape
    split at shape <;> cases shape
    rfl

theorem declaredType?_multi {enum : String}
    (backed : info.Backed settings enums (.enumeration .multi enum)) :
    info.declaredType? = some (.slice .int) := by
  cases backed with
  | enumeration _ _ _ _ _ _ parsed shape =>
    rw [declaredType?, parsed]
    unfold Field.enumMultiplicity? at shape
    split at shape <;> cases shape
    rfl

theorem writeType?_isSome (backed : info.Backed settings enums class_)
    (classified : info.classification? = some class_) :
    ∃ expected, info.writeType? = some expected := by
  obtain ⟨type, declared⟩ := backed.declaredType?_isSome
  rw [writeType?, classified, Option.bind_some]
  rcases class_ with _ | ⟨_ | _, _⟩ | _
  · exact ⟨type, declared⟩
  · exact ⟨_, rfl⟩
  · exact ⟨_, rfl⟩
  · exact ⟨type, declared⟩

-- A value of known type is accepted if it fits, or if it is one option for a field that holds many.
theorem accepts_known_iff (backed : info.Backed settings enums class_)
    (classified : info.classification? = some class_) :
    info.accepts (.known type) ↔ info.Fits type ∨ info.OptionOfMany type := by
  rw [accepts, Fits, OptionOfMany, writeType?, StaticType.known?, Option.any_some, isEnumType, enum?,
    isMulti, classified]
  rcases class_ with ⟨representation, getter⟩ | ⟨_ | _, target⟩ | ⟨_ | _, enum⟩
  · obtain ⟨declared, h⟩ := backed.declaredType?_isSome
    simp [h, Classification.enum?, StaticType.assignableTo, @eq_comm _ type]
  · simp [Classification.enum?, StaticType.assignableTo, TypeExpr.any]
  · simp [Classification.enum?, StaticType.assignableTo, TypeExpr.any]
  · simp [backed.declaredType?_single, Classification.enum?, Classification.isMulti,
      Classification.multiplicity, StaticType.assignableTo, TypeExpr.any, TypeExpr.int]
  · simp [backed.declaredType?_multi, Classification.enum?, Classification.isMulti,
      Classification.multiplicity, StaticType.assignableTo, TypeExpr.any]
    tauto

end Backed

end FieldInfo

-- A value, or a variable that is declared with it.
inductive TypedExpr.HeldAs (span : Span) (bound : List (String × Expr)) (v : TypedExpr) :
    TypedExpr → Prop
  | value : HeldAs span bound v v
  | binding {name : String} (declared : (name, v.expr) ∈ bound) (named : name ≠ "_") :
      HeldAs span bound v ⟨.ident span name, v.type⟩

-- The types that expressions have by the declarations of a package, where the types of some
-- expressions are known. A list of literals takes its type from its elements and gives it to them; a
-- name of a type converts integers; and a generic function over integers takes lists of them.
inductive Expr.Typed (ds : List Decl) (known : TypedExpr → Prop) : Expr → TypeExpr → Prop
  | known {e : TypedExpr} {type : TypeExpr} (given : known e) (is : e.type = some (.known type)) :
      Typed ds known e.expr type
  | element {span : Span} {written type : TypeExpr} {elements : List Element} {element : Element} :
      Typed ds known (.composite span written elements) (.slice type) → element ∈ elements →
      Typed ds known element.value type
  | list {span : Span} {type : TypeExpr} {elements : List Element} :
      (∀ element ∈ elements, element.key? = none) →
      (∀ element ∈ elements, Typed ds known element.value type) →
      Typed ds known (.composite span (.slice type) elements) (.slice type)
  | conversion {span : Span} {name : String} {e : Expr} : .defined name .int ∈ ds →
      Typed ds known e .int → Typed ds known (.callNamed name [e] span) (.named name)
  | generic {span : Span} {f : FuncDecl} {param value : String} {result : TypeExpr} {e : Expr} :
      .func f ∈ ds → f.receiver = none → f.typeParams = [⟨param, .approx .int⟩] →
      f.params = [⟨value, .slice (.named param)⟩] → f.results = [result] →
      Typed ds known e (.slice .int) → Typed ds known (.callNamed f.name [e] span) result

-- The elements of a literal are of its element type.
theorem Expr.Typed.literalElements? {ds : List Decl} {known : TypedExpr → Prop} {e : Expr}
    {type : TypeExpr} {elements : List Expr} (typed : e.Typed ds known (.slice type))
    (literal : FieldInfo.literalElements? e = some elements) :
    ∀ element ∈ elements, element.Typed ds known type := by
  unfold FieldInfo.literalElements? at literal
  split at literal
  · split at literal
    · obtain rfl := Option.some.inj literal
      exact List.forall_mem_map.2 fun element mem => typed.element mem
    · cases literal
  · cases literal

section

variable {settings : Settings} {enums : EnumTable} {ds : List Decl} {info : FieldInfo}
  {class_ : Classification} {type : TypeExpr} {source : TypedExpr}

-- The enumeration of the field is declared, with all that belongs to it.
def FieldInfo.EnumDeclared (settings : Settings) (ds : List Decl) (info : FieldInfo) : Prop :=
  ∀ enum, info.enum? = some enum → ∃ entry : EnumEntry, entry.name = enum ∧
    ∀ d ∈ entry.declarations settings, d ∈ ds

theorem Catalog.enumDeclared {c : Catalog} {methods : List FuncDecl} {e : EntityFields}
    (built : EntitiesBuilt settings enums c.entities) (he : e ∈ c.entities) (hi : info ∈ e.fields)
    (classified : info.classification? = some class_) :
    info.EnumDeclared settings (c.declarations enums settings methods) := by
  intro enum is
  have backed := (built.fields e he).backed info hi class_ classified
  rw [FieldInfo.enum?, classified] at is
  cases backed with
  | primitive | relation => cases is
  | @enumeration spec entry multiplicity _ _ _ found _ =>
    cases is
    have found : info.enum?.bind enums.get? = some entry := by
      rw [FieldInfo.enum?, classified]
      exact found
    exact ⟨entry, rfl, fun d hd =>
      (enum_mem_declarationsFrom settings methods [] he hi found hd).resolve_left (by simp)⟩

section

variable {known : TypedExpr → Prop} (declared : info.EnumDeclared settings ds)
  (typed : source.expr.Typed ds known type) (is : source.type = some (.known type)) (span : Span)
include declared typed is

-- What is passed for one option is of the enumeration.
theorem FieldInfo.argument_single {enum : String}
    (classified : info.classification? = some (.enumeration .single enum))
    (fits : type = .int ∨ type = .named enum) :
    (info.argument settings source span).Typed ds known (.named enum) := by
  have converts : info.enum? = some enum := by rw [enum?, classified]; rfl
  have single : info.isMulti = false := by rw [isMulti, classified]; rfl
  obtain ⟨entry, rfl, all⟩ := declared enum converts
  simp only [argument, converts, single, Bool.false_eq_true, if_false]
  by_cases kept : source.hasType (.named entry.name)
  · rw [if_pos kept]
    obtain rfl : type = .named entry.name := by simpa [TypedExpr.hasType, is] using kept
    exact typed
  · rw [if_neg kept]
    have other : type ≠ .named entry.name := by simpa [TypedExpr.hasType, is] using kept
    obtain rfl := fits.resolve_right other
    exact .conversion (all _ (.head _)) typed

-- What is passed for a list of options is a list of the enumeration: a literal is converted element
-- by element, and any other list by a call.
theorem FieldInfo.argument_multi {enum : String}
    (classified : info.classification? = some (.enumeration .multi enum))
    (fits : type = .slice .int ∨ type = .slice (.named enum)) :
    (info.argument settings source span).Typed ds known (.slice (.named enum)) := by
  have converts : info.enum? = some enum := by rw [enum?, classified]; rfl
  have multi : info.isMulti = true := by rw [isMulti, classified]; rfl
  obtain ⟨entry, rfl, all⟩ := declared enum converts
  simp only [argument, converts, multi, if_true]
  by_cases kept : type = .slice (.named entry.name)
  · subst kept
    rw [if_pos (by simp [TypedExpr.hasType, is])]
    exact typed
  · rw [if_neg (by simp [TypedExpr.hasType, is, kept])]
    obtain rfl := fits.resolve_right kept
    split
    case h_1 elements literal =>
      refine .list (List.forall_mem_map.2 fun _ _ => rfl) (List.forall_mem_map.2 fun e he => ?_)
      exact .conversion (all _ (.head _)) (typed.literalElements? literal e he)
    case h_2 =>
      have helper : .func (entry.sliceHelper settings) ∈ ds :=
        all _ (.tail _ (.tail _ (.tail _ (.tail _ (.head _)))))
      exact .generic helper rfl rfl rfl rfl typed

-- What is passed for a value that fits has the type of the parameter.
theorem FieldInfo.argument_typed {pair : AccessorPair} {param : Param}
    (accessors : info.accessors? settings = some pair) (takes : pair.mutator.params = [param])
    (fits : info.Fits type) :
    param.type = .any ∨ (info.argument settings source span).Typed ds known param.type := by
  obtain ⟨class_, classified, made⟩ := Option.bind_eq_some_iff.1 accessors
  have plain (none : class_.enum? = none) : info.argument settings source span = source.expr := by
    rw [argument, enum?, classified, Option.bind_some, none]
  simp only [Fits, classified] at fits
  rcases class_ with ⟨representation, getter⟩ | ⟨_ | _, target⟩ | ⟨_ | _, enum⟩
  · obtain ⟨written, h, rfl⟩ := Option.map_eq_some_iff.1 made
    cases takes
    rcases fits with fits | fits <;> obtain rfl := Option.some.inj (h.symm.trans fits)
    · exact .inr (plain rfl ▸ typed)
    · exact .inl rfl
  · obtain rfl := Option.some.inj made
    cases takes
    exact .inr (plain rfl ▸ fits ▸ typed)
  · obtain rfl := Option.some.inj made
    cases takes
    exact .inr (plain rfl ▸ fits ▸ typed)
  · obtain rfl := Option.some.inj made
    cases takes
    exact .inr (argument_single declared typed is span classified fits)
  · obtain rfl := Option.some.inj made
    cases takes
    exact .inr (argument_multi declared typed is span classified fits)

end

end

-- The statement calls the mutator of the field, for the value or for a variable that holds it.
def Target.WrittenFor (settings : Settings) (span : Span) (bound : List (String × Expr)) :
    Target × TypedExpr → Stmt → Prop
  | (.field _ info, v), s => ∃ place source,
      v.HeldAs span bound source ∧ s = info.write settings place source span
  | _, _ => False

section

variable {settings : Settings} {span : Span} {bound bound' : List (String × Expr)}

theorem Target.WrittenFor.mono {pair : Target × TypedExpr} {s : Stmt}
    (h : Target.WrittenFor settings span bound pair s)
    (sub : ∀ b ∈ bound, b.1 ≠ "_" → b ∈ bound') : Target.WrittenFor settings span bound' pair s := by
  obtain ⟨t, v⟩ := pair
  cases t with
  | plain | blank => cases h
  | field receiver info =>
    obtain ⟨place, source, held, is⟩ := h
    refine ⟨place, source, ?_, is⟩
    cases held with
    | value => exact .value
    | binding declared named => exact .binding (sub _ declared named) named

variable (span) in
theorem captureValue_holds (hint : String) (v : TypedExpr) (s : Temporaries) :
    let out := (captureValue span hint (some v) s).1
    out.2.names.length = out.2.values.length ∧ v.HeldAs span out.2.pairs out.1 := by
  intro out
  have fresh := (captureValue_draws span hint (some v)).fresh s
  simp only [out, captureValue] at fresh ⊢
  split at fresh
  case isTrue constant =>
    rw [if_pos constant]
    exact ⟨rfl, .value⟩
  case isFalse constant =>
    rw [if_neg constant]
    exact ⟨rfl, .binding (List.mem_singleton_self _) (fresh _ (List.mem_singleton_self _)).2⟩

variable (settings span) in
-- What is planned for one target and its value.
theorem planTarget_holds (inPlace : Bool) {t t' : Target} {b : List (String × Expr)}
    (captured : t.CapturedIn span b t') (v : TypedExpr) (s : Temporaries) :
    let part := (planTarget settings span inPlace t' (some v) s).1
    part.captured.names.length = part.captured.values.length ∧
      List.Forall₂ (Target.WrittenFor settings span part.captured.pairs)
        ([(t, v)].filter (·.1.isField)) part.mutator.toList := by
  intro part
  cases t with
  | field receiver info =>
    obtain ⟨place, rfl, -⟩ := captured
    obtain ⟨paired, held⟩ := captureValue_holds span info.name v s
    simp only [part, planTarget_field]
    exact ⟨paired, .cons ⟨place, _, held, rfl⟩ .nil⟩
  | plain =>
    obtain ⟨place, rfl, -⟩ := captured
    simp only [part, planTarget_plain]
    split
    · exact ⟨rfl, .nil⟩
    · exact ⟨(captureValue_holds span place.nameHint v s).1, .nil⟩
  | blank =>
    obtain rfl := captured
    simp only [part, planTarget_blank]
    split
    · exact ⟨rfl, .nil⟩
    · refine ⟨?_, .nil⟩
      rw [discard]
      split <;> rfl

theorem written_of_parts {inPlace : Bool} {ts operands : List Target} {vs : List TypedExpr}
    {parts : List TargetPlan}
    (captured : List.Forall₂ (fun t t' => ∃ b, t.CapturedIn span b t') ts operands)
    (paired : ts.length = vs.length)
    (made : List.Forall₂ (fun pair part =>
      ∃ s, (planTarget settings span inPlace pair.1 pair.2 s).1 = part)
      (operands.zip (vs.map some)) parts) :
    (∀ part ∈ parts, part.captured.names.length = part.captured.values.length) ∧
      ∀ bound, (∀ part ∈ parts, ∀ b ∈ part.captured.pairs, b.1 ≠ "_" → b ∈ bound) →
        List.Forall₂ (Target.WrittenFor settings span bound) ((ts.zip vs).filter (·.1.isField))
          (parts.filterMap (·.mutator)) := by
  induction captured generalizing vs parts with
  | nil =>
    cases made
    exact ⟨List.forall_mem_nil _, fun _ _ => .nil⟩
  | @cons t t' ts operands head _ ih =>
    obtain ⟨v, vs, rfl⟩ := List.exists_cons_of_length_eq_add_one paired.symm
    cases made with
    | @cons _ part _ parts first rest =>
      obtain ⟨s, rfl⟩ := first
      obtain ⟨b, captured⟩ := head
      obtain ⟨lengths, written⟩ := planTarget_holds settings span inPlace captured v s
      obtain ⟨others, ih⟩ := ih (Nat.succ.inj paired) rest
      refine ⟨List.forall_mem_cons.2 ⟨lengths, others⟩, fun bound sub => ?_⟩
      obtain ⟨subHead, sub⟩ := List.forall_mem_cons.1 sub
      rw [List.zip_cons_cons, ← List.singleton_append, List.filter_append,
        List.filterMap_eq_flatMap_toList, List.flatMap_cons, ← List.filterMap_eq_flatMap_toList]
      exact List.rel_append (written.imp fun pair s h => h.mono subHead) (ih bound sub)

-- What is planned for an assignment with a value for each target.
theorem planTargets_written (settings : Settings) (span : Span) {ts : List Target}
    {vs : List TypedExpr} (temps : Temporaries) (paired : ts.length = vs.length) :
    let p := (planTargets settings span ts vs temps).1
    List.Forall₂ (Target.WrittenFor settings span (p.bindings.flatMap Stmt.bound))
      ((ts.zip vs).filter (·.1.isField)) p.mutators := by
  let operands := (planOperands span ts vs temps).1
  let parts := (planParts settings span ts vs temps).1
  have each := planOperands_takes span temps ts vs
  obtain ⟨takes, -⟩ := foldl_takes (each.imp fun _ _ h => h.2.2) .none
  have captured : List.Forall₂ (fun t t' => ∃ b, t.CapturedIn span b t') ts (operands.map (·.1)) :=
    List.forall₂_map_right_iff.2 (each.imp fun _ _ h => ⟨_, h.1⟩)
  have made : List.Forall₂ (fun pair part => ∃ s, (planTarget settings span
      (ts.any (·.isPlain) && planCallFree ts vs) pair.1 pair.2 s).1 = part)
      ((operands.map (·.1)).zip (planSources ts vs)) parts := forall₂_mapM _ _ _
  rw [planSources, if_pos paired] at made
  obtain ⟨lengths, written⟩ := written_of_parts captured paired made
  simp only [planTargets_eq]
  refine written _ fun part hp b hb named => ?_
  rw [planBindings_flatMap, if_pos paired]
  refine statement?_bound _ ?_ named
  rw [Captured.pairs_append takes.paired]
  refine List.mem_append_right _ ?_
  rw [(Captured.foldl_append_pairs _ lengths rfl).2]
  exact List.mem_append_right _ (List.mem_flatMap.2 ⟨part, hp, hb⟩)

namespace RedirectContext

variable {r : RedirectContext} {temps temps' : Temporaries}

theorem Planned.written {targets : List Expr} {ts : List Target} {vs : List TypedExpr}
    {p : AssignPlan} (h : Planned r span targets temps ts vs p temps')
    (paired : ts.length = vs.length) :
    List.Forall₂ (Target.WrittenFor r.settings span (p.bindings.flatMap Stmt.bound))
      ((ts.zip vs).filter (·.1.isField)) p.mutators := by
  cases h with
  | kept noField =>
    have none : (ts.zip vs).filter (·.1.isField) = [] := List.filter_eq_nil_iff.2 fun pair mem =>
      List.any_eq_false.1 noField _ (List.of_mem_zip (a := pair.1) (b := pair.2) mem).1
    exact none ▸ .nil
  | @single receiver info value => exact .cons ⟨receiver, value, .value, rfl⟩ .nil
  | split _ _ hp =>
    have written := planTargets_written r.settings span temps paired
    rwa [hp] at written

theorem Planned.sorted {written : List Expr} {ts : List Target} {vs : List TypedExpr}
    {p : AssignPlan} (h : Planned r span written temps ts vs p temps')
    (formed : ts.any (·.isField) → p.Formed r.settings span temps ts vs fun _ => False) :
    p.Sorted ∧ (p.mutators ≠ [] ∨ p.bindings = []) := by
  cases field : ts.any (·.isField) with
  | true => exact ⟨(formed field).sorted, .inl ((formed field).mutators_ne_nil field)⟩
  | false =>
    cases h with
    | kept =>
      refine ⟨⟨List.forall_mem_nil _, fun s hs => ?_, List.forall_mem_nil _⟩, .inr rfl⟩
      obtain rfl := Option.some.inj hs
      exact ⟨rfl, rfl⟩
    | single => cases field
    | split some => rw [field] at some; cases some

end RedirectContext

end

-- The value that `op=` stores in a field: what is read through a variable for its receiver, combined
-- with the operand.
def FieldInfo.updated (info : FieldInfo) (span : Span) (receiver : Expr) (temps : Temporaries)
    (op : BinaryOp) (operand : Expr) : TypedExpr :=
  let read := info.read (.ident span (Temporaries.fresh receiver.nameHint temps).1) span
  ⟨.binary span op read.expr (operand.asOperandOf op span), read.type⟩

namespace RedirectContext

variable {σ : Type} [TypeOracle σ] {r : RedirectContext} {o : σ} {span : Span}
  {temps temps' : Temporaries}

-- What an assignment with one value for each target stores, target by target. One that changes a
-- field by an operation is written out, unless its target calls something.
inductive Assigns (r : RedirectContext) (o : σ) (span : Span) (temps : Temporaries) :
    Stmt → List (Target × TypedExpr) → Prop
  | each {s : Stmt} {written values : List Expr} {ts : List Target} {vs : List TypedExpr}
      (expands : s.expand = .assign span written .assign values)
      (paired : written.length = values.length) (targets : r.targets o written = .ok ts)
      (sources : r.values o values = .ok vs) : Assigns r o span temps s (ts.zip vs)
  | compound {target value receiver : Expr} {op : BinaryOp} {info : FieldInfo} {v : TypedExpr}
      (calls : ¬target.isCallFree) (aims : r.target o target = .ok (.field receiver info))
      (source : r.value o value = .ok v) :
      Assigns r o span temps (.assign span [target] (.compound op) [value])
        [(.field receiver info, info.updated span receiver temps op v.expr)]
  | step {target receiver : Expr} {increment : Bool} {info : FieldInfo}
      (calls : ¬target.isCallFree) (aims : r.target o target = .ok (.field receiver info)) :
      Assigns r o span temps (.step span target increment)
        [(.field receiver info,
          info.updated span receiver temps (stepOp increment) (.literal span (.int 1)))]

-- An assignment that is written out is planned as what it is written out to.
theorem planned_of_expand {s : Stmt} {written values : List Expr}
    (expands : s.expand = .assign span written .assign values) :
    (∀ elseIf, r.stmt o elseIf s = do return (← r.planAssign o span written values).statements) ∧
      ∀ place, r.header o place (some s) =
        (do r.relocate place span (← r.planAssign o span written values)) := by
  cases s <;> try cases expands
  case assign at_ targets op sources =>
    cases op with
    | assign =>
      cases expands
      exact ⟨fun _ => by rw [stmt, plan], fun _ => rfl⟩
    | define => cases expands
    | compound op =>
      rw [Stmt.expand] at expands
      split at expands
      case isTrue repeatable =>
        cases expands
        have planned : r.plan o span targets (.compound op) sources = r.planAssign o span _ _ :=
          if_pos repeatable
        exact ⟨fun _ => by rw [stmt, planned], fun _ => by rw [header, planned]⟩
      case isFalse => cases expands
  case step at_ target increment =>
    rw [Stmt.expand] at expands
    split at expands
    case isTrue free =>
      cases expands
      have planned : r.planStep o span target increment = r.planAssign o span _ _ := if_pos free
      exact ⟨fun _ => by rw [stmt, planned], fun _ => by rw [header, planned]⟩
    case isFalse => cases expands

theorem value_literal (r : RedirectContext) (o : σ) (span : Span) (l : Literal) :
    r.value o (.literal span l) =
      .ok ⟨.literal span l, TypeOracle.typeOf? o (.literal span l)⟩ := by
  rw [value]
  rfl

-- What is emitted for an assignment writes what it stores, in order, and all of it was checked.
structure Writes (r : RedirectContext) (span : Span) (ws : List (Target × TypedExpr))
    (emitted : List Stmt) : Prop where
  written : List.Forall₂ (Target.WrittenFor r.settings span (emitted.flatMap Stmt.bound))
    (ws.filter (·.1.isField)) (emitted.filter (·.isExpr))
  checked : ∀ receiver info v, (.field receiver info, v) ∈ ws →
    r.checkWrite info v.type span = .ok ()

theorem writes_of_planCompound {target value receiver : Expr} {op : BinaryOp}
    {form : Expr → Expr → Stmt} {info : FieldInfo} {v : TypedExpr} {p : AssignPlan}
    {emitted : List Stmt}
    (planned : r.planCompound o span target op value form temps = .ok (p, temps'))
    (laid : p.mutators ≠ [] → p.Laid emitted)
    (aims : r.target o target = .ok (.field receiver info)) (source : r.value o value = .ok v) :
    Writes r span [(.field receiver info, info.updated span receiver temps op v.expr)] emitted := by
  simp only [planCompound, Redirecting.ok_bind, Redirecting.ok_lift, aims, source,
    Except.ok.injEq] at planned
  obtain ⟨_, _, ⟨rfl, rfl⟩, _, _, ⟨rfl, rfl⟩, planned⟩ := planned
  simp only [Redirecting.ok_bind, Redirecting.ok_lift, Redirecting.ok_modifyGet,
    Redirecting.ok_pure] at planned
  obtain ⟨captured, _, hc, _, _, ⟨checked, _⟩, rfl, _⟩ := planned
  obtain rfl := congrArg Prod.fst hc
  have quiet (s : Stmt) := @statement?_quiet span (captureOperand span receiver temps).1.2 s
  obtain ⟨-, exprs⟩ := AssignPlan.Sorted.parts
    ⟨fun s hs => (quiet s hs).1, by rintro _ ⟨⟩, List.forall_mem_singleton.2 ⟨_, rfl⟩⟩
    (laid (List.cons_ne_nil _ _))
  refine ⟨?_, fun receiver' info' v' mem => ?_⟩
  · rw [exprs]
    exact .cons ⟨_, _, .value, rfl⟩ .nil
  · obtain ⟨same, rfl⟩ := Prod.mk.inj (List.mem_singleton.1 mem)
    cases same
    exact checked

theorem Assigns.writes {s : Stmt} {ws : List (Target × TypedExpr)} {emitted : List Stmt}
    (assigns : Assigns r o span temps s ws) (emits : Emits r o temps s emitted) :
    Writes r span ws emitted := by
  cases assigns with
  | @each _ written values ts vs expands paired targets sources =>
    obtain ⟨inBlock, inHeader⟩ := planned_of_expand (r := r) (o := o) expands
    obtain ⟨p, _, planned, laid⟩ := emits.exists_laid inBlock inHeader
    obtain ⟨ts', vs', ht, hv, formed⟩ := formed_planAssign planned
    obtain rfl := Except.ok.inj (targets.symm.trans ht)
    obtain rfl := Except.ok.inj (sources.symm.trans hv)
    obtain ⟨ts', vs', ht, hv, planned⟩ := planned_of_ok planned
    obtain rfl := Except.ok.inj (targets.symm.trans ht)
    obtain rfl := Except.ok.inj (sources.symm.trans hv)
    have paired : ts.length = vs.length := by
      rw [← (ok_mapM.1 targets).length_eq, ← (ok_values.1 sources).length_eq, paired]
    obtain ⟨sorted, writes⟩ := planned.sorted formed
    obtain ⟨bound, exprs⟩ := sorted.parts (laid writes)
    refine ⟨?_, fun receiver info v mem => planned.checked mem paired⟩
    rw [bound, exprs]
    exact planned.written paired
  | compound calls aims source =>
    obtain ⟨p, _, planned, laid⟩ := emits.exists_plan (fun _ => by rw [stmt]) fun _ => rfl
    rw [plan, if_neg (by simpa [Stmt.areRepeatable] using calls)] at planned
    exact writes_of_planCompound planned laid aims source
  | step calls aims =>
    obtain ⟨p, _, planned, laid⟩ := emits.exists_plan (fun _ => by rw [stmt]) fun _ => rfl
    rw [planStep, if_neg calls] at planned
    exact writes_of_planCompound planned laid aims (value_literal ..)

-- The error says that a value of some type does not suit the target, a field.
inductive Mismatch (r : RedirectContext) (span : Span) :
    Target → Option StaticType → RedirectError → Prop
  | field {receiver : Expr} {info : FieldInfo} {expected : TypeExpr} {found : StaticType}
      (takes : info.writeType? = some expected) (refused : info.accepts found = false) :
      Mismatch r span (.field receiver info) (some found)
        ⟨r.method, span, .typeMismatch info.entity info.name expected found⟩

section

variable {receiver : Expr} {info : FieldInfo} {v : TypedExpr}

theorem checkWrite_ok_or (r : RedirectContext) (span : Span) (receiver : Expr) (info : FieldInfo)
    (type : Option StaticType) : r.checkWrite info type span = .ok () ∨
      ∃ e, Mismatch r span (.field receiver info) type e ∧
        r.checkWrite info type span = .error e := by
  unfold checkWrite
  split
  case h_1 expected found takes =>
    split
    · exact .inl rfl
    case isFalse refused => exact .inr ⟨_, .field takes (by simpa using refused), rfl⟩
  case h_2 => exact .inl rfl

theorem checkWrite_of_mismatch {type : Option StaticType} {e : RedirectError}
    (h : Mismatch r span (.field receiver info) type e) : r.checkWrite info type span = .error e := by
  cases h with
  | field takes refused =>
    simp [checkWrite, takes, refused, fail, throw, throwThe, MonadExceptOf.throw]

-- The first value that does not suit its field stops the checks.
theorem checkWrites_ok_or (r : RedirectContext) (span : Span) (ts : List Target)
    (vs : List TypedExpr) : r.checkWrites span ts vs = .ok () ∨ ∃ w ∈ ts.zip vs,
      ∃ e, Mismatch r span w.1 w.2.type e ∧ r.checkWrites span ts vs = .error e := by
  induction ts generalizing vs with
  | nil => exact .inl rfl
  | cons t ts ih =>
    cases vs with
    | nil => cases t <;> exact .inl rfl
    | cons v vs =>
      -- What is not checked at this target is passed on.
      have later (passed : r.checkWrites span (t :: ts) (v :: vs) = r.checkWrites span ts vs) :
          r.checkWrites span (t :: ts) (v :: vs) = .ok () ∨ ∃ w ∈ (t, v) :: ts.zip vs,
            ∃ e, Mismatch r span w.1 w.2.type e ∧
              r.checkWrites span (t :: ts) (v :: vs) = .error e := by
        rw [passed]
        refine (ih vs).imp_right ?_
        rintro ⟨w, mem, e, stops⟩
        exact ⟨w, List.mem_cons_of_mem _ mem, e, stops⟩
      cases t with
      | plain | blank => exact later rfl
      | field receiver info =>
        rcases r.checkWrite_ok_or span receiver info v.type with passed | ⟨e, mismatch, stopped⟩
        · exact later (by rw [checkWrites, passed]; rfl)
        · exact .inr ⟨_, List.mem_cons_self .., e, mismatch, by rw [checkWrites, stopped]; rfl⟩

-- An assignment is planned if its operands are redirected and its values pass their checks.
theorem planAssign_ok {written values : List Expr} {ts : List Target} {vs : List TypedExpr}
    (targets : r.targets o written = .ok ts) (sources : r.values o values = .ok vs)
    (checked : ts.length = vs.length → r.checkWrites span ts vs = .ok ()) (temps : Temporaries) :
    ∃ out, r.planAssign o span written values temps = .ok out := by
  rw [planAssign, Redirecting.bind_lift targets, Redirecting.bind_lift sources]
  dsimp only
  split
  case isFalse => exact ⟨_, rfl⟩
  case isTrue =>
    split
    case isFalse => split <;> exact ⟨_, rfl⟩
    case isTrue paired =>
      rw [Redirecting.bind_lift (checked paired)]
      split <;> exact ⟨_, rfl⟩

theorem planCompound_refused {target value receiver : Expr} {op : BinaryOp}
    {form : Expr → Expr → Stmt} {info : FieldInfo} {v : TypedExpr}
    (aims : r.target o target = .ok (.field receiver info)) (source : r.value o value = .ok v)
    (refused : r.checkWrite info (info.updated span receiver temps op v.expr).type span ≠ .ok ()) :
    ∃ e, Mismatch r span (.field receiver info)
        (info.updated span receiver temps op v.expr).type e ∧
      r.planCompound o span target op value form temps = .error e := by
  obtain ⟨e, mismatch, stopped⟩ := (r.checkWrite_ok_or span receiver info _).resolve_left refused
  refine ⟨e, mismatch, ?_⟩
  rw [planCompound, Redirecting.bind_lift aims, Redirecting.bind_lift source]
  dsimp only
  rw [Redirecting.bind_modifyGet]
  exact Redirecting.bind_of_error (Redirecting.error_lift.2 stopped) _

theorem refused_of_plan {s : Stmt} (span : Span) (planned : Redirecting AssignPlan)
    {e : RedirectError}
    (inBlock : ∀ elseIf, r.stmt o elseIf s = (do return (← planned).statements))
    (inHeader : ∀ place, r.header o place (some s) = (do r.relocate place span (← planned)))
    (stopped : planned temps = .error e) : (∀ elseIf, r.stmt o elseIf s temps = .error e) ∧
      ∀ place, r.header o place (some s) temps = .error e := by
  refine ⟨fun elseIf => ?_, fun place => ?_⟩
  · rw [inBlock]
    exact Redirecting.bind_of_error stopped _
  · rw [inHeader]
    exact Redirecting.bind_of_error stopped _

-- An assignment of a value that does not suit its field is refused, in a block and in a header.
theorem Assigns.refused {s : Stmt} {ws : List (Target × TypedExpr)}
    (assigns : Assigns r o span temps s ws) (mem : (.field receiver info, v) ∈ ws)
    (refused : r.checkWrite info v.type span ≠ .ok ()) :
    ∃ w ∈ ws, ∃ e, Mismatch r span w.1 w.2.type e ∧ (∀ elseIf, r.stmt o elseIf s temps = .error e) ∧
      ∀ place, r.header o place (some s) temps = .error e := by
  cases assigns with
  | @each _ written values ts vs expands paired targets sources =>
    obtain ⟨inBlock, inHeader⟩ := planned_of_expand (r := r) (o := o) expands
    obtain ⟨w, hw, e, mismatch, stopped⟩ := (r.checkWrites_ok_or span ts vs).resolve_left
      fun passed => refused (checkWrite_of_checkWrites mem passed)
    have paired : ts.length = vs.length := by
      rw [← (ok_mapM.1 targets).length_eq, ← (ok_values.1 sources).length_eq, paired]
    have field : ts.any (·.isField) = true :=
      List.any_eq_true.2 ⟨_, (List.of_mem_zip mem).1, rfl⟩
    have planned : r.planAssign o span written values temps = .error e := by
      rw [planAssign, Redirecting.bind_lift targets, Redirecting.bind_lift sources, if_pos field,
        if_pos paired]
      exact Redirecting.bind_of_error (Redirecting.error_lift.2 stopped) _
    exact ⟨w, hw, e, mismatch, refused_of_plan span _ inBlock inHeader planned⟩
  | @compound target value _ op _ _ calls aims source =>
    obtain ⟨same, rfl⟩ := Prod.mk.inj (List.mem_singleton.1 mem)
    cases same
    obtain ⟨e, mismatch, stopped⟩ := planCompound_refused aims source refused
    refine ⟨_, mem, e, mismatch, refused_of_plan span
      (r.plan o span [target] (.compound op) [value]) (fun _ => by rw [stmt]) (fun _ => rfl) ?_⟩
    rw [plan, if_neg (by simpa [Stmt.areRepeatable] using calls)]
    exact stopped
  | @step target _ increment _ calls aims =>
    obtain ⟨same, rfl⟩ := Prod.mk.inj (List.mem_singleton.1 mem)
    cases same
    obtain ⟨e, mismatch, stopped⟩ := planCompound_refused aims (value_literal ..) refused
    refine ⟨_, mem, e, mismatch, refused_of_plan span
      (r.planStep o span target increment) (fun _ => by rw [stmt]) (fun _ => rfl) ?_⟩
    rw [planStep, if_neg calls]
    exact stopped

end

theorem Assigns.denotes {s : Stmt} {ws : List (Target × TypedExpr)}
    (assigns : Assigns r o span temps s ws) {receiver : Expr} {info : FieldInfo} {v : TypedExpr}
    (mem : (.field receiver info, v) ∈ ws) :
    ∃ (visit : Visit σ) (base : TypedExpr), visit.Denotes r base info := by
  cases assigns with
  | each expands paired targets sources =>
    obtain ⟨visit, _, base, _, denotes, _⟩ := (targets_weave targets).2 _ _ (List.of_mem_zip mem).1
    exact ⟨visit, base, denotes⟩
  | compound calls aims | step calls aims =>
    obtain ⟨same, _⟩ := Prod.mk.inj (List.mem_singleton.1 mem)
    obtain ⟨visit, _, base, _, denotes, _⟩ := (target_weaves _ aims).2 _ _ same.symm
    exact ⟨visit, base, denotes⟩

-- A field that is written is one of the catalog.
theorem mem_catalog_of_denotes {visit : Visit σ} {base : TypedExpr} {info : FieldInfo}
    (h : visit.Denotes r base info) : ∃ e ∈ r.scope.catalog.entities, info ∈ e.fields ∧
      ∃ class_, info.classification? = some class_ := by
  obtain ⟨proxied, _, entity, _, _, found⟩ := field_of_resolve h.resolved
  obtain ⟨e, he, -, hi⟩ := Catalog.mem_of_field? found
  exact ⟨e, he, hi, FieldInfo.isProxied_iff.1 proxied⟩

theorem checkWrite_known_iff {settings : Settings} {enums : EnumTable} {info : FieldInfo}
    {class_ : Classification} {type : TypeExpr} (backed : info.Backed settings enums class_)
    (classified : info.classification? = some class_) :
    r.checkWrite info (some (.known type)) span = .ok () ↔
      info.Fits type ∨ info.OptionOfMany type := by
  obtain ⟨expected, takes⟩ := backed.writeType?_isSome classified
  simp only [← backed.accepts_known_iff classified, checkWrite, takes]
  split
  case isTrue accepted => exact iff_of_true rfl accepted
  case isFalse refused => exact iff_of_false (fun passed => by cases passed) refused

theorem backed_of_denotes {schema : Schema} {visit : Visit σ} {base : TypedExpr}
    {info : FieldInfo} (built : r.scope.catalog = (Catalog.build schema r.settings {}).value)
    (h : visit.Denotes r base info) : ∃ class_, info.classification? = some class_ ∧
      info.Backed r.settings (Catalog.build schema r.settings {}).enums class_ := by
  obtain ⟨e, he, hi, class_, classified⟩ := mem_catalog_of_denotes h
  exact ⟨class_, classified, ((Catalog.build_spec schema r.settings).fields e
    (built ▸ he)).backed info hi class_ classified⟩

end RedirectContext

-- The statement calls the mutator of the field. If the type of the value is known, it is one that the
-- field takes, and the argument has the type of the parameter; one option for a field that holds many
-- is passed over.
def Target.Passes (ds : List Decl) (span : Span) (bound : List (String × Expr)) :
    Target × TypedExpr → Stmt → Prop
  | (.field _ info, v), s => ∃ (f : FuncDecl) (param : Param) (place arg : Expr), .func f ∈ ds ∧
      f.receiverEntity? = some info.entity ∧ f.name = info.mutator ∧ f.params = [param] ∧
      s = .expr (.call span (.select span place f.name) [] [arg]) ∧
      ∀ type, v.type = some (.known type) → info.OptionOfMany type ∨
        info.Fits type ∧ (param.type = .any ∨ arg.Typed ds (v.HeldAs span bound) param.type)
  | _, _ => False

namespace RedirectContext

variable {σ : Type} [TypeOracle σ] {r : RedirectContext} {o : σ} {span : Span}
  {temps : Temporaries} {s : Stmt} {ws : List (Target × TypedExpr)} {schema : Schema}

section

variable (built : r.scope.catalog = (Catalog.build schema r.settings {}).value)
  (assigns : Assigns r o span temps s ws) {receiver : Expr} {info : FieldInfo} {v : TypedExpr}
  (mem : (.field receiver info, v) ∈ ws)
include built assigns mem

-- A value of known type passes the check of its field if the field takes the type.
theorem Assigns.fits {type : TypeExpr} (is : v.type = some (.known type))
    (passed : r.checkWrite info v.type span = .ok ()) : info.Fits type ∨ info.OptionOfMany type := by
  obtain ⟨visit, base, denotes⟩ := assigns.denotes mem
  obtain ⟨class_, classified, backed⟩ := backed_of_denotes built denotes
  exact (checkWrite_known_iff backed classified).1 (is ▸ passed)

theorem Assigns.passes (methods : List FuncDecl) {bound : List (String × Expr)} {st : Stmt}
    (written : Target.WrittenFor r.settings span bound (.field receiver info, v) st)
    (passed : r.checkWrite info v.type span = .ok ()) :
    let catalog := Catalog.build schema r.settings {}
    Target.Passes (catalog.value.declarations catalog.enums r.settings methods) span bound
      (.field receiver info, v) st := by
  have spec := Catalog.build_spec schema r.settings
  obtain ⟨place, source, held, rfl⟩ := written
  obtain ⟨visit, base, denotes⟩ := assigns.denotes mem
  obtain ⟨e, he, hi, class_, classified⟩ := mem_catalog_of_denotes denotes
  rw [built] at he
  have backed := (spec.fields e he).backed info hi class_ classified
  obtain ⟨pair, made, -, called, -, on⟩ := FieldInfo.accessors?_of_backed classified backed
  obtain ⟨-, param, takes⟩ := FieldInfo.params_of_accessors? made
  refine ⟨pair.mutator, param, place, info.argument r.settings source span,
    Catalog.func_mem_declarationsFrom he (e.accessor_mem_functions methods hi made).2, on, called,
    takes, by rw [called]; rfl, fun type is => ?_⟩
  refine (assigns.fits built mem is passed).symm.imp_right fun fits => ⟨fits, ?_⟩
  have type' : source.type = some (.known type) := by cases held <;> exact is
  exact FieldInfo.argument_typed (Catalog.enumDeclared spec he hi classified) (.known held type')
    type' span made takes fits

end

-- What an accepted assignment passes to the mutators has the types of their parameters, and a value of
-- a known type that its field does not take is refused. One option for a field of many is accepted.
theorem written_values_fit (built : r.scope.catalog = (Catalog.build schema r.settings {}).value)
    (assigns : Assigns r o span temps s ws) (methods : List FuncDecl) :
    let catalog := Catalog.build schema r.settings {}
    let ds := catalog.value.declarations catalog.enums r.settings methods
    (∀ emitted, Emits r o temps s emitted →
      List.Forall₂ (Target.Passes ds span (emitted.flatMap Stmt.bound)) (ws.filter (·.1.isField))
        (emitted.filter (·.isExpr))) ∧
    ∀ receiver info v type, (.field receiver info, v) ∈ ws → v.type = some (.known type) →
      ¬info.Fits type → ¬info.OptionOfMany type →
      ∃ w ∈ ws, ∃ e, Mismatch r span w.1 w.2.type e ∧ (∀ elseIf, r.stmt o elseIf s temps = .error e) ∧
        ∀ place, r.header o place (some s) temps = .error e := by
  intro catalog ds
  refine ⟨fun emitted emits => ?_, fun receiver info v type mem is misfit many => ?_⟩
  · obtain ⟨written, checked⟩ := assigns.writes emits
    have both := (List.forall₂_and_left (ws.filter (·.1.isField)) _).2 ⟨fun _ h => h, written⟩
    refine both.imp fun w st ⟨mem, h⟩ => ?_
    obtain ⟨t, v⟩ := w
    cases t with
    | plain | blank => cases h
    | field receiver info =>
      have mem := (List.mem_filter.1 mem).1
      exact assigns.passes built mem methods h (checked _ _ _ mem)
  · exact assigns.refused mem fun passed =>
      (assigns.fits built mem is passed).elim misfit many

end RedirectContext

-- An order with a number, a note, a status and many tags.
def Entity.tagged : Entity where
  name := "Order"
  fields :=
    [{ name := "count", type := "int" }, { name := "note", type := "string" },
     Schema.enumField "status" "Status" ["new", "paid"] false,
     Schema.enumField "tags" "Tag" ["rush", "gift"] true]

def Schema.tagged : Schema where
  entities := [.tagged]

namespace FieldInfo

def taggedCount : FieldInfo :=
  ⟨"Order", { name := "count", type := "int" }, .proxied (.primitive "int" "GetInt")⟩

def taggedNote : FieldInfo :=
  ⟨"Order", { name := "note", type := "string" }, .proxied (.primitive "string" "GetString")⟩

def taggedStatus : FieldInfo :=
  ⟨"Order", Schema.enumField "status" "Status" ["new", "paid"] false,
    .proxied (.enumeration .single "Status")⟩

def taggedTags : FieldInfo :=
  ⟨"Order", Schema.enumField "tags" "Tag" ["rush", "gift"] true,
    .proxied (.enumeration .multi "Tag")⟩

end FieldInfo

-- The catalog of `Schema.tagged`.
def Catalog.tagged : Catalog where
  entities := [⟨.tagged, [.taggedCount, .taggedNote, .taggedStatus, .taggedTags]⟩]

theorem Catalog.build_tagged : (build .tagged .standard {}).value = tagged := by
  decide +kernel

-- A method of an order `o`, with an integer `n`, a list `ns` of integers, a text `s` and a tag `t`.
def TypeContext.tagged : TypeContext :=
  ⟨.tagged, ⟨[]⟩, [⟨"o", some (.pointer (.named "Order"))⟩, ⟨"n", some .int⟩,
    ⟨"ns", some (.slice .int)⟩, ⟨"s", some .string⟩, ⟨"t", some (.named "Tag")⟩]⟩

namespace RedirectContext

def tagged : RedirectContext :=
  ⟨"F", ⟨.tagged, ["Order"]⟩, .standard⟩

-- The assignment `o.status, o.note = n, s` passes an option and a text, and `o.note = n` is refused.
theorem written_values_fit_tagged :
    let catalog := Catalog.build .tagged .standard {}
    let ds := catalog.value.declarations catalog.enums .standard []
    let name (x : String) : Expr := .ident .nowhere x
    let field (f : String) : Expr := .select .nowhere (name "o") f
    let n : TypedExpr := ⟨name "n", some (.known .int)⟩
    let s : TypedExpr := ⟨name "s", some (.known .string)⟩
    (∃ emitted, Emits tagged TypeContext.tagged ⟨[]⟩
        (.assign .nowhere [field "status", field "note"] .assign [n.expr, s.expr]) emitted ∧
      List.Forall₂ (Target.Passes ds .nowhere (emitted.flatMap Stmt.bound))
        [(.field (name "o") .taggedStatus, n), (.field (name "o") .taggedNote, s)]
        (emitted.filter (·.isExpr))) ∧
    ∃ e, Mismatch tagged .nowhere (.field (name "o") .taggedNote) n.type e ∧
      tagged.stmt TypeContext.tagged false (.assign .nowhere [field "note"] .assign [n.expr]) ⟨[]⟩ =
        .error e := by
  intro catalog ds name field n s
  have built : tagged.scope.catalog = catalog.value := Catalog.build_tagged.symm
  constructor
  · obtain ⟨⟨emitted, temps⟩, ran⟩ : ∃ out, tagged.stmt TypeContext.tagged false
        (.assign .nowhere [field "status", field "note"] .assign [n.expr, s.expr]) ⟨[]⟩ = .ok out :=
      exists_ok (by decide +kernel)
    have assigns : Assigns tagged TypeContext.tagged .nowhere ⟨[]⟩
        (.assign .nowhere [field "status", field "note"] .assign [n.expr, s.expr])
        [(.field (name "o") .taggedStatus, n), (.field (name "o") .taggedNote, s)] :=
      @Assigns.each _ _ _ _ _ _ _ _ _ [.field (name "o") .taggedStatus, .field (name "o") .taggedNote]
        [n, s] rfl rfl rfl rfl
    exact ⟨emitted, .block ran, (written_values_fit built assigns []).1 emitted (.block ran)⟩
  · have assigns : Assigns tagged TypeContext.tagged .nowhere ⟨[]⟩
        (.assign .nowhere [field "note"] .assign [n.expr]) [(.field (name "o") .taggedNote, n)] :=
      @Assigns.each _ _ _ _ _ _ _ _ _ [.field (name "o") .taggedNote] [n] rfl rfl rfl rfl
    have misfit : ¬FieldInfo.taggedNote.Fits .int := by
      change ¬(FieldInfo.taggedNote.declaredType? = some .int ∨
        FieldInfo.taggedNote.declaredType? = some .any)
      decide +kernel
    have one : ¬FieldInfo.taggedNote.OptionOfMany .int := by
      rintro ⟨_, classified, _⟩
      cases classified
    obtain ⟨w, mem, e, mismatch, inBlock, _⟩ := (written_values_fit built assigns []).2 _ _ _ _
      (List.mem_singleton_self _) rfl misfit one
    obtain rfl := List.mem_singleton.1 mem
    exact ⟨e, mismatch, inBlock false⟩

-- The assignment `o.tags = t` of one tag is accepted, though a tag is no list of tags, and passed to
-- a function that takes a list.
theorem option_written_to_many :
    let name (x : String) : Expr := .ident .nowhere x
    let t : TypedExpr := ⟨name "t", some (.known (.named "Tag"))⟩
    let s : Stmt := .assign .nowhere [.select .nowhere (name "o") "tags"] .assign [t.expr]
    tagged.scope.catalog = (Catalog.build .tagged .standard {}).value ∧
    Assigns tagged TypeContext.tagged .nowhere ⟨[]⟩ s [(.field (name "o") .taggedTags, t)] ∧
    ¬FieldInfo.taggedTags.Fits (.named "Tag") ∧
    tagged.stmt TypeContext.tagged false s ⟨[]⟩ =
      .ok ([.expr (.call .nowhere (.select .nowhere (name "o") FieldInfo.taggedTags.mutator) []
        [.callNamed (Settings.standard.sliceHelper "Tag") [t.expr] .nowhere])], ⟨[]⟩) := by
  intro name t s
  refine ⟨Catalog.build_tagged.symm, ?_, ?_, ?_⟩
  · exact @Assigns.each _ _ _ _ _ _ _ _ _ [.field (name "o") .taggedTags] [t] rfl rfl rfl rfl
  · change ¬(TypeExpr.named "Tag" = .slice .int ∨ TypeExpr.named "Tag" = .slice (.named "Tag"))
    decide
  · rw [stmt]
    with_unfolding_all rfl

end RedirectContext

end FieldAccess
