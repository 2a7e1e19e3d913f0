import FieldAccess.Proofs.GraphMatching
import FieldAccess.Proofs.ScopeClosure
import FieldAccess.Proofs.SettledValues
import FieldAccess.Proofs.PlaceSimulation

namespace FieldAccess

-- The types of variables of a kind.
def Kind.Of : Kind → TypeExpr → Prop
  | int, type => type = .int
  | pointer entity, type => type.namedTarget? = some entity ∧ type ≠ .int

theorem Kind.of_type (k : Kind) : k.Of k.type := by
  cases k with
  | int => rfl
  | pointer entity => exact ⟨rfl, nofun⟩

-- What is known of the type of an operand of a kind. A constant is an untyped integer.
def Kind.Typed (k : Kind) (type : Option StaticType) : Prop :=
  (∃ known, type = some (.known known) ∧ k.Of known) ∨ k = .int ∧ type = some .untypedInt

theorem Kind.typed_int {type : Option StaticType} :
    Kind.int.Typed type ↔ type = some (.known .int) ∨ type = some .untypedInt := by
  simp [Typed, Of]

theorem TypeContext.binaryType?_int {left right : Option StaticType} (op : BinaryOp)
    (arithmetic : op.isArithmetic) (l : left = some (.known .int) ∨ left = some .untypedInt)
    (r : right = some (.known .int) ∨ right = some .untypedInt) :
    binaryType? op left right = some (.known .int) ∨ binaryType? op left right = some .untypedInt := by
  revert arithmetic
  rcases l with rfl | rfl <;> rcases r with rfl | rfl <;> cases op <;> decide

namespace Expr

-- A chain of relations from a variable, or an integer expression over variables and fields.
inductive Operand (c : TypeContext) : Kind → Expr → Prop
  | var {k span x type} : c.lookup? x = some type → k.Of type → Operand c k (.ident span x)
  | field {k entity span base member info} : Operand c (.pointer entity) base →
      c.catalog.field? entity member = some info → k.Field info →
      Operand c k (.select span base member)
  | paren {k span inner} : Operand c k inner → Operand c k (.paren span inner)
  | literal {span a} : Operand c .int (.literal span (.int a))
  | unary {span op operand} : op ∈ [UnaryOp.plus, .negate, .complement] → Operand c .int operand →
      Operand c .int (.unary span op operand)
  | binary {span op left right} : op.isArithmetic → Operand c .int left → Operand c .int right →
      Operand c .int (.binary span op left right)

-- The blank name, or a field of what a chain of relations points at.
inductive FieldTarget (c : TypeContext) : Expr → Prop
  | blank {span} : FieldTarget c (.ident span "_")
  | field {entity span base member info} (k : Kind) : Operand c (.pointer entity) base →
      c.catalog.field? entity member = some info → k.Field info →
      FieldTarget c (.select span base member)
  | paren {span inner} : FieldTarget c inner → FieldTarget c (.paren span inner)

variable {c : TypeContext} {k : Kind} {e : Expr}

theorem Operand.typed (h : e.Operand c k) : k.Typed (c.typeOf? e) := by
  induction h with
  | var known of => exact .inl ⟨_, by rw [TypeContext.typeOf?, known]; rfl, of⟩
  | @field k entity span base member info _ found field ih =>
    obtain ⟨type, typed, named, _⟩ | ⟨int, _⟩ := ih
    · refine .inl ⟨k.type, ?_, k.of_type⟩
      simp [TypeContext.typeOf?, typed, TypeContext.entityOf?_known named found, found,
        field.declared]
    · cases int
  | paren _ ih => exact ih
  | literal => exact .inr ⟨rfl, rfl⟩
  | @unary _ op _ mem _ ih =>
    have same {type} : TypeContext.unaryType? op type = type := by
      rcases List.mem_cons.1 mem with rfl | mem
      · rfl
      rcases List.mem_pair.1 mem with rfl | rfl <;> rfl
    rw [TypeContext.typeOf?, same]
    exact ih
  | binary arithmetic _ _ ihl ihr =>
    rw [Kind.typed_int] at ihl ihr ⊢
    exact TypeContext.binaryType?_int _ arithmetic ihl ihr

end Expr

-- The scope holds what the variables refer to and what can be reached from there.
structure RedirectContext.Covers (r : RedirectContext) (c : TypeContext) (names : List String) :
    Prop where
  catalog : r.scope.catalog = c.catalog
  closed : r.scope.Closed
  roots : ∀ x ∈ names, ∀ type entity, c.lookup? x = some type → type.namedTarget? = some entity →
    c.catalog.hasEntity entity → entity ∈ r.scope.entities

section

variable {r : RedirectContext} {c : TypeContext} {names : List String} {k : Kind} {e : Expr}
  {t : TypedExpr}

-- A scope holds the entities that chains of relations lead to.
theorem Expr.Operand.mem_scope {entity : String} (h : e.Operand c (.pointer entity))
    (covers : r.Covers c names) (sub : e.names ⊆ names) (known : c.catalog.hasEntity entity) :
    entity ∈ r.scope.entities := by
  generalize hk : Kind.pointer entity = k at h
  induction h generalizing entity with
  | @var k span x type lookup of =>
    subst hk
    exact covers.roots x (sub (List.mem_singleton_self x)) type entity lookup of.1 known
  | @field k source span base member info _ found field ih =>
    subst hk
    have reached := ih sub (Catalog.hasEntity_of_field? found) rfl
    obtain ⟨e, he, hf⟩ := Option.bind_eq_some_iff.1 found
    refine (covers.closed source reached entity ?_ (covers.catalog ▸ known)).resolve_right (by simp)
    rw [covers.catalog, Catalog.relationTargets_eq he]
    refine List.mem_filterMap.2 ⟨info, List.mem_of_find?_eq_some hf, ?_⟩
    rw [field.classified]
    rfl
  | paren _ ih => exact ih sub known hk
  | literal | unary | binary => cases hk

-- A selector on a chain of relations denotes the field.
theorem Expr.Operand.resolve_field {entity member : String} {info : FieldInfo}
    (h : e.Operand c (.pointer entity)) (covers : r.Covers c names) (sub : e.names ⊆ names)
    (found : c.catalog.field? entity member = some info) (field : k.Field info) (span : Span)
    (value : r.value c e = .ok t) : r.resolve c t.type member span = .ok (.proxied info) := by
  obtain ⟨type, typed, named, _⟩ | ⟨int, _⟩ := h.typed
  · have inScope : r.fieldOf? t.type member = some info := by
      have reached := h.mem_scope covers sub (Catalog.hasEntity_of_field? found)
      rw [RedirectContext.value_type covers.catalog e t value, typed]
      simp only [RedirectContext.fieldOf?, Option.bind_some, StaticType.known?, named,
        RedirectScope.field?, RedirectScope.contains, List.contains_iff_mem.2 reached, if_true]
      rw [covers.catalog, found]
    rw [RedirectContext.resolve_fieldOf? _ _ covers.catalog, inScope]
    simp only [field.access]
  · cases int

theorem Expr.Operand.value_field {entity member : String} {info : FieldInfo} {span : Span}
    (h : e.Operand c (.pointer entity)) (covers : r.Covers c names) (sub : e.names ⊆ names)
    (found : c.catalog.field? entity member = some info) (field : k.Field info)
    (value : r.value c (.select span e member) = .ok t) :
    ∃ base, r.value c e = .ok base ∧ t = info.read base.expr span := by
  simp only [RedirectContext.value, ok_bind] at value
  obtain ⟨base, hb, resolution, resolved, value⟩ := value
  rw [h.resolve_field covers sub found field span hb] at resolved
  cases resolved
  exact ⟨base, hb, (ok_pure.1 value).symm⟩

end

namespace Value

theorem unary_int {op : UnaryOp} {a : Int64} {v : Value}
    (mem : op ∈ [UnaryOp.plus, .negate, .complement]) (h : unary op (.int a) = .ok v) :
    ∃ b, v = .int b := by
  rcases List.mem_cons.1 mem with rfl | mem
  · exact ⟨a, (ok_pure.1 h).symm⟩
  rcases List.mem_pair.1 mem with rfl | rfl
  · rw [unary] at h
    split at h
    · cases h
    · exact ⟨_, (ok_pure.1 h).symm⟩
  · exact ⟨_, (ok_pure.1 h).symm⟩

theorem divides_int {a b q : Int64} {v : Value} (h : divides a b q = .ok v) : ∃ d, v = .int d := by
  rw [divides] at h
  split at h
  · cases h
  split at h
  · cases h
  · exact ⟨q, (ok_pure.1 h).symm⟩

theorem binary_int {op : BinaryOp} {a b : Int64} {v : Value} (arithmetic : op.isArithmetic)
    (h : binary op (.int a) (.int b) = .ok v) : ∃ d, v = .int d := by
  cases op
  case div | mod => exact divides_int h
  case eq | ne | lt | le | gt | ge | and | or => exact absurd arithmetic (by decide)
  all_goals exact ⟨_, (ok_pure.1 h).symm⟩

end Value

theorem Exec.eval_arithmetic {p : Program} {call : CallHandler} {f : Frame} {span : Span}
    {op : BinaryOp} {left right : Expr} (arithmetic : op.isArithmetic) :
    eval p call f (.binary span op left right) = eval p call f left >>= fun a =>
      eval p call f right >>= fun b => ofExcept (Value.binary op a b) :=
  eval_binary (by rintro rfl; cases arithmetic) (by rintro rfl; cases arithmetic)

-- The variables of the run on plain objects, and what stands for them in the other run.
structure Locals (c : TypeContext) (nodes : List Node) (names : List String) (f f' : Frame)
    (m' : Machine) : Prop where
  var : ∀ {k : Kind} {x type}, x ∈ names → c.lookup? x = some type → k.Of type →
    ∃ v v', f.get? x = some v ∧ f'.get? x = some v' ∧ k.Has nodes v ∧ Stands nodes m' v v'

section

variable {r : RedirectContext} {c : TypeContext} {nodes : List Node} {names : List String} {k : Kind}
  {e : Expr} {t : TypedExpr} {p p' : Program} {call call' : CallHandler} {f f' : Frame}
  {m m₁ m' m'₁ : Machine} {v : Value}

theorem Locals.later (h : Locals c nodes names f f' m') (later : m'.Later m'₁) :
    Locals c nodes names f f' m'₁ where
  var mem known of := by
    obtain ⟨v, v', held, held', has, stands⟩ := h.var mem known of
    exact ⟨v, v', held, held', has, stands.later later⟩

namespace Expr.Operand

-- On plain objects nothing changes while an operand is evaluated.
theorem eval_has (h : e.Operand c k) (sub : e.names ⊆ names)
    (locals : Locals c nodes names f f' m') (matching : Matching c.catalog nodes m m')
    (run : Exec.eval p call f e m = .ok v m₁) : m = m₁ ∧ k.Has nodes v := by
  induction h generalizing v m₁ with
  | @var k span x type known of =>
    obtain ⟨var, same⟩ := Exec.ok_eval_ident.1 run
    obtain ⟨w, _, held, _, has, _⟩ := locals.var (sub (List.mem_singleton_self x)) known of
    rw [Frame.var?, held] at var
    exact ⟨same, Option.some.inj var ▸ has⟩
  | @field k entity span base member info _ found field ih =>
    rw [Exec.eval] at run
    obtain ⟨b, _, hb, run⟩ := Exec.ok_bind.1 run
    obtain ⟨rfl, rfl | ⟨n, mem, rfl, rfl⟩⟩ := ih sub hb
    · exact (Exec.ok_fail.1 run).elim
    · obtain ⟨w, held, has, _⟩ := (matching.matched n mem).fields found field
      obtain ⟨_, value, same⟩ := Exec.ok_select_object run fun _ => ⟨w, held⟩
      exact ⟨same, Option.some.inj (held.symm.trans value) ▸ has⟩
  | paren _ ih =>
    rw [Exec.eval] at run
    exact ih sub run
  | literal =>
    obtain ⟨rfl, same⟩ := Exec.ok_pure.1 run
    exact ⟨same, _, rfl⟩
  | unary mem _ ih =>
    rw [Exec.eval] at run
    obtain ⟨b, _, hb, run⟩ := Exec.ok_bind.1 run
    obtain ⟨rfl, a, rfl⟩ := ih sub hb
    obtain ⟨value, same⟩ := Exec.ok_ofExcept.1 run
    exact ⟨same, Value.unary_int mem value⟩
  | @binary _ op left right arithmetic _ _ ihl ihr =>
    obtain ⟨subl, subr⟩ := List.append_subset.1 sub
    rw [Exec.eval_arithmetic arithmetic] at run
    obtain ⟨a, _, ha, run⟩ := Exec.ok_bind.1 run
    obtain ⟨b, _, hb, run⟩ := Exec.ok_bind.1 run
    obtain ⟨rfl, a, rfl⟩ := ihl subl ha
    obtain ⟨rfl, b, rfl⟩ := ihr subr hb
    obtain ⟨value, same⟩ := Exec.ok_ofExcept.1 run
    exact ⟨same, Value.binary_int arithmetic value⟩

-- Redirected, an operand gives what stands for its value. On the way there may be new wrappers.
theorem eval_redirected (h : e.Operand c k) (covers : r.Covers c names) (sub : e.names ⊆ names)
    (served : c.catalog.ServedBy p' call') (locals : Locals c nodes names f f' m')
    (matching : Matching c.catalog nodes m m') (value : r.value c e = .ok t)
    (run : Exec.eval p call f e m = .ok v m₁) :
    ∃ v' m'₁, Exec.eval p' call' f' t.expr m' = .ok v' m'₁ ∧ m'.Grows m'₁ ∧
      Stands nodes m'₁ v v' := by
  induction h generalizing v m₁ t m' with
  | @var k span x type known of =>
    obtain rfl := ok_pure.1 value
    obtain ⟨var, _⟩ := Exec.ok_eval_ident.1 run
    obtain ⟨w, w', held, held', _, stands⟩ := locals.var (sub (List.mem_singleton_self x)) known of
    rw [Frame.var?, held] at var
    obtain rfl := Option.some.inj var
    exact ⟨w', m', Exec.ok_eval_ident.2 ⟨by rw [Frame.var?, held']; rfl, rfl⟩, .refl m', stands⟩
  | @field k entity span base member info operand found field ih =>
    obtain ⟨b, hb, rfl⟩ := operand.value_field covers sub found field value
    rw [Exec.eval] at run
    obtain ⟨o, _, ho, run⟩ := Exec.ok_bind.1 run
    obtain ⟨rfl, has⟩ := operand.eval_has sub locals matching ho
    obtain ⟨o', m'₁, ho', grows, stands⟩ := ih sub locals matching hb ho
    rcases has with rfl | ⟨n, mem, rfl, rfl⟩
    · exact (Exec.ok_fail.1 run).elim
    generalize he : Value.object n.object = o at stands
    cases stands with
    | int | nil => cases he
    | @object u w hu wraps =>
      obtain rfl := matching.apart n mem u hu (.inl (Value.object.inj he))
      have matched := (matching.matched n mem).grow grows
      obtain ⟨w, held, has, stored⟩ := matched.fields found field
      obtain ⟨_, same, _⟩ := Exec.ok_select_object run fun _ => ⟨w, held⟩
      obtain rfl := Option.some.inj (held.symm.trans same)
      obtain ⟨v', m'₂, read, grows', stands⟩ := served.read found field wraps
        (fun n mem => ((matching.matched n mem).grow grows).record) has stored
      exact ⟨v', m'₂, Exec.eval_method ho' read, grows.trans grows', stands⟩
  | paren _ ih =>
    obtain ⟨inner, hi, rfl⟩ := RedirectContext.ok_value_paren value
    rw [Exec.eval] at run
    simp only [Exec.eval]
    exact ih sub locals matching hi run
  | @literal span a =>
    obtain rfl := ok_pure.1 value
    obtain ⟨rfl, _⟩ := Exec.ok_pure.1 run
    exact ⟨.int a, m', rfl, .refl m', .int a⟩
  | unary mem operand ih =>
    obtain ⟨o, ho, same⟩ := RedirectContext.ok_value_unary value
    rw [Exec.eval] at run
    obtain ⟨a, _, ha, run⟩ := Exec.ok_bind.1 run
    obtain ⟨rfl, a, rfl⟩ := operand.eval_has sub locals matching ha
    obtain ⟨_, m'₁, ha', grows, ⟨_⟩⟩ := ih sub locals matching ho ha
    obtain ⟨result, _⟩ := Exec.ok_ofExcept.1 run
    obtain ⟨d, rfl⟩ := Value.unary_int mem result
    refine ⟨.int d, m'₁, ?_, grows, .int d⟩
    rw [same, Exec.eval, Exec.bind_of_ok ha']
    exact Exec.ok_ofExcept.2 ⟨result, rfl⟩
  | @binary _ op left right arithmetic opl opr ihl ihr =>
    obtain ⟨subl, subr⟩ := List.append_subset.1 sub
    obtain ⟨l, l', hl, hl', rfl⟩ := RedirectContext.ok_value_binary value
    rw [Exec.eval_arithmetic arithmetic] at run
    obtain ⟨a, _, ha, run⟩ := Exec.ok_bind.1 run
    obtain ⟨b, _, hb, run⟩ := Exec.ok_bind.1 run
    obtain ⟨rfl, a, rfl⟩ := opl.eval_has subl locals matching ha
    obtain ⟨rfl, b, rfl⟩ := opr.eval_has subr locals matching hb
    obtain ⟨_, m'₁, ha', grows, ⟨_⟩⟩ := ihl subl locals matching hl ha
    obtain ⟨_, m'₂, hb', grows', ⟨_⟩⟩ := ihr subr (locals.later grows.later) (matching.grow grows) hl' hb
    obtain ⟨result, _⟩ := Exec.ok_ofExcept.1 run
    obtain ⟨d, rfl⟩ := Value.binary_int arithmetic result
    refine ⟨.int d, m'₂, ?_, grows.trans grows', .int d⟩
    rw [Exec.eval_arithmetic arithmetic, Exec.bind_of_ok ha', Exec.bind_of_ok hb']
    exact Exec.ok_ofExcept.2 ⟨result, rfl⟩

-- What calls nothing reads no field, so it has its value in whatever state the records are.
theorem eval_callFree (h : e.Operand c k) (covers : r.Covers c names) (sub : e.names ⊆ names)
    (locals : Locals c nodes names f f' m') (value : r.value c e = .ok t)
    (free : t.expr.isCallFree = true) (run : Exec.eval p call f e m = .ok v m₁) :
    k.Has nodes v ∧
      ∃ v', Exec.eval p' call' f' t.expr m' = .ok v' m' ∧ Stands nodes m' v v' := by
  induction h generalizing v m m₁ t with
  | @var k span x type known of =>
    obtain rfl := ok_pure.1 value
    obtain ⟨var, _⟩ := Exec.ok_eval_ident.1 run
    obtain ⟨w, w', held, held', has, stands⟩ := locals.var (sub (List.mem_singleton_self x)) known of
    rw [Frame.var?, held] at var
    obtain rfl := Option.some.inj var
    exact ⟨has, w', Exec.ok_eval_ident.2 ⟨by rw [Frame.var?, held']; rfl, rfl⟩, stands⟩
  | field operand found field =>
    obtain ⟨b, _, rfl⟩ := operand.value_field covers sub found field value
    cases free
  | paren _ ih =>
    obtain ⟨inner, hi, rfl⟩ := RedirectContext.ok_value_paren value
    rw [Exec.eval] at run
    simp only [Exec.eval]
    exact ih sub hi free run
  | @literal span a =>
    obtain rfl := ok_pure.1 value
    obtain ⟨rfl, _⟩ := Exec.ok_pure.1 run
    exact ⟨⟨a, rfl⟩, .int a, rfl, .int a⟩
  | unary mem operand ih =>
    obtain ⟨o, ho, same⟩ := RedirectContext.ok_value_unary value
    rw [same] at free ⊢
    rw [Exec.eval] at run ⊢
    obtain ⟨a, _, ha, run⟩ := Exec.ok_bind.1 run
    obtain ⟨⟨a, rfl⟩, _, ha', ⟨_⟩⟩ := ih sub ho free ha
    obtain ⟨result, _⟩ := Exec.ok_ofExcept.1 run
    obtain ⟨d, rfl⟩ := Value.unary_int mem result
    rw [Exec.bind_of_ok ha']
    exact ⟨⟨d, rfl⟩, .int d, Exec.ok_ofExcept.2 ⟨result, rfl⟩, .int d⟩
  | @binary _ op left right arithmetic opl opr ihl ihr =>
    obtain ⟨subl, subr⟩ := List.append_subset.1 sub
    obtain ⟨l, l', hl, hl', rfl⟩ := RedirectContext.ok_value_binary value
    obtain ⟨freel, freer⟩ := Bool.and_eq_true_iff.1 free
    rw [Exec.eval_arithmetic arithmetic] at run ⊢
    obtain ⟨a, _, ha, run⟩ := Exec.ok_bind.1 run
    obtain ⟨b, _, hb, run⟩ := Exec.ok_bind.1 run
    obtain ⟨⟨a, rfl⟩, _, ha', ⟨_⟩⟩ := ihl subl hl freel ha
    obtain ⟨⟨b, rfl⟩, _, hb', ⟨_⟩⟩ := ihr subr hl' freer hb
    obtain ⟨result, _⟩ := Exec.ok_ofExcept.1 run
    obtain ⟨d, rfl⟩ := Value.binary_int arithmetic result
    rw [Exec.bind_of_ok ha', Exec.bind_of_ok hb']
    exact ⟨⟨d, rfl⟩, .int d, Exec.ok_ofExcept.2 ⟨result, rfl⟩, .int d⟩

end Expr.Operand

end

-- What stays the same while the operands of an assignment are evaluated: the variables and the
-- machine of the run on plain objects, and the program of the other run.
structure Scene where
  types : TypeContext
  nodes : List Node
  names : List String
  frame : Frame
  machine : Machine
  program : Program
  call : CallHandler

namespace Scene

variable (s : Scene)

-- The variables stand for those of the run on plain objects.
abbrev Local (f' : Frame) (m' : Machine) : Prop :=
  Locals s.types s.nodes s.names s.frame f' m'

-- The expression gives what stands for a value, as long as no record has changed, or even later if
-- it calls nothing.
structure Yields (e : Expr) (v : Value) : Prop where
  run : ∀ {f' m'}, s.Local f' m' → Matching s.types.catalog s.nodes s.machine m' →
    ∃ v' m'₁, Exec.eval s.program s.call f' e m' = .ok v' m'₁ ∧ m'.Grows m'₁ ∧
      Stands s.nodes m'₁ v v'
  free : e.isCallFree = true → ∀ {f' m'}, s.Local f' m' →
    ∃ v', Exec.eval s.program s.call f' e m' = .ok v' m' ∧ Stands s.nodes m' v v'

-- A target of the run on plain objects, and the place that it denotes there.
inductive Aims : Target → Place → Prop
  | blank : Aims .blank .blank
  | field {n : Node} {receiver : Expr} {info : FieldInfo} (k : Kind) : n ∈ s.nodes →
      s.types.catalog.field? n.entity info.name = some info → k.Field info →
      s.Yields receiver (.object n.object) →
      Aims (.field receiver info) (.field n.object info.name)

end Scene

section

variable {s : Scene} {r : RedirectContext} {k : Kind} {e : Expr} {t : TypedExpr} {target : Target}
  {place : Place} {p : Program} {call : CallHandler} {f' : Frame} {m₁ m' : Machine} {v : Value}
  (covers : r.Covers s.types s.names) (served : s.types.catalog.ServedBy s.program s.call)
  (locals : s.Local f' m') (matching : Matching s.types.catalog s.nodes s.machine m')

include covers served locals matching

theorem Expr.Operand.yields (h : e.Operand s.types k) (sub : e.names ⊆ s.names)
    (value : r.value s.types e = .ok t) (run : Exec.eval p call s.frame e s.machine = .ok v m₁) :
    s.machine = m₁ ∧ k.Has s.nodes v ∧ s.Yields t.expr v := by
  obtain ⟨same, has⟩ := h.eval_has sub locals matching run
  refine ⟨same, has, fun locals matching => ?_, fun free _ _ locals => ?_⟩
  · exact h.eval_redirected covers sub served locals matching value run
  · exact (h.eval_callFree covers sub locals value free run).2

-- Resolving a target changes nothing, and what it becomes aims at the same place.
theorem Expr.FieldTarget.aims (h : e.FieldTarget s.types) (sub : e.names ⊆ s.names)
    (ht : r.target s.types e = .ok target)
    (run : Place.resolve p call s.frame e s.machine = .ok place m₁) :
    s.machine = m₁ ∧ s.Aims target place := by
  induction h generalizing target place m₁ with
  | blank =>
    obtain rfl := ok_pure.1 ht
    obtain ⟨rfl, same⟩ := Exec.ok_pure.1 run
    exact ⟨same, .blank⟩
  | @field entity span base member info k operand found field =>
    obtain ⟨b, hb, ht⟩ := ok_bind.1 ht
    rw [operand.resolve_field covers sub found field span hb] at ht
    obtain rfl := ok_pure.1 ht
    rw [Place.resolve] at run
    obtain ⟨o, _, ho, run⟩ := Exec.ok_bind.1 run
    obtain ⟨rfl, has, yields⟩ := operand.yields covers served locals matching sub hb ho
    rcases has with rfl | ⟨n, mem, rfl, rfl⟩
    · exact (Exec.ok_fail.1 run).elim
    · obtain ⟨rfl, same⟩ := Exec.ok_pure.1 run
      obtain rfl := Catalog.name_of_field? found
      exact ⟨same, .field k mem found field yields⟩
  | paren _ ih =>
    rw [Place.resolve] at run
    exact ih sub ht run

end

end FieldAccess
