import FieldAccess.Proofs.InsertedCalls
import FieldAccess.Proofs.NamesInUse
import FieldAccess.Proofs.SettledBodies

namespace FieldAccess

def TypeExpr.typeNames : TypeExpr → List String
  | named name => [name]
  | pointer inner | slice inner | approx inner => inner.typeNames
  | map key value => key.typeNames ++ value.typeNames

-- What is not an identifier of the code may still be hidden by a variable: the names of types, and
-- of the functions that are called.
def Expr.referents : Expr → List String
  | call _ callee typeArgs _ => callee.ident?.toList ++ typeArgs.flatMap (·.typeNames)
  | composite _ type _ | typeOperand _ type => type.typeNames
  | _ => []

def Expr.word? : Expr → Option String
  | ident _ name => some name
  | select _ _ member => some member
  | _ => none

def Stmt.referents : Stmt → List String
  | var _ _ type _ => type.toList.flatMap (·.typeNames)
  | _ => []

namespace Block

def Declares (b : Block) (x : String) : Prop :=
  ∃ s, b.Holds s ∧ x ∈ s.boundNames

def RefersTo (b : Block) (x : String) : Prop :=
  (∃ s, b.Holds s ∧ x ∈ s.referents) ∨ ∃ e, b.Evaluates e ∧ x ∈ e.referents

def Words (b : Block) (x : String) : Prop :=
  ∃ e, b.Evaluates e ∧ e.word? = some x

end Block

-- The names that code may have for each of its parts.
structure Vocabulary where
  word : String → Prop
  referent : String → Prop
  declared : String → Prop

namespace Vocabulary

-- Where any word may stand in an expression.
def anyWord (V : Vocabulary) : Vocabulary :=
  { V with word := fun _ => True }

end Vocabulary

section

variable {V : Vocabulary} {span : Span}

namespace Expr

def Keeps (V : Vocabulary) (e : Expr) : Prop :=
  ∀ part : Expr, part.Within e → (∀ w ∈ part.word?, V.word w) ∧ ∀ x ∈ part.referents, V.referent x

theorem keeps_iff {e : Expr} : e.Keeps V ↔
    (∀ w ∈ e.word?, V.word w) ∧ (∀ x ∈ e.referents, V.referent x) ∧
      ∀ part ∈ e.operands, part.Keeps V := by
  constructor
  · intro h
    obtain ⟨words, referents⟩ := h e (.self e)
    exact ⟨words, referents, fun part mem inner within => h inner (.operand mem within)⟩
  · rintro ⟨words, referents, operands⟩ part within
    cases within with
    | self => exact ⟨words, referents⟩
    | operand mem within => exact operands _ mem part within

theorem Keeps.anyWord {e : Expr} (h : e.Keeps V) : e.Keeps V.anyWord :=
  fun part within => ⟨fun _ _ => trivial, (h part within).2⟩

attribute [local simp] word? referents operands

@[simp]
theorem keeps_ident {name : String} : (ident span name).Keeps V ↔ V.word name := by
  rw [keeps_iff]
  simp

@[simp]
theorem keeps_literal {value : Literal} : (literal span value).Keeps V := by
  rw [keeps_iff]
  simp

@[simp]
theorem keeps_select {base : Expr} {member : String} :
    (select span base member).Keeps V ↔ V.word member ∧ base.Keeps V := by
  rw [keeps_iff]
  simp

@[simp]
theorem keeps_call {callee : Expr} {typeArgs : List TypeExpr} {args : List Expr} :
    (call span callee typeArgs args).Keeps V ↔
      ((∀ x ∈ callee.ident?, V.referent x) ∧
        ∀ x ∈ typeArgs.flatMap (·.typeNames), V.referent x) ∧
        callee.Keeps V ∧ ∀ e ∈ args, e.Keeps V := by
  rw [keeps_iff]
  simp [or_imp, forall_and, and_assoc]

@[simp]
theorem keeps_index {base i : Expr} :
    (index span base i).Keeps V ↔ base.Keeps V ∧ i.Keeps V := by
  rw [keeps_iff]
  simp

@[simp]
theorem keeps_binary {op : BinaryOp} {left right : Expr} :
    (binary span op left right).Keeps V ↔ left.Keeps V ∧ right.Keeps V := by
  rw [keeps_iff]
  simp

@[simp]
theorem keeps_unary {op : UnaryOp} {operand : Expr} :
    (unary span op operand).Keeps V ↔ operand.Keeps V := by
  rw [keeps_iff]
  simp

@[simp]
theorem keeps_paren {inner : Expr} : (paren span inner).Keeps V ↔ inner.Keeps V := by
  rw [keeps_iff]
  simp

@[simp]
theorem keeps_composite {type : TypeExpr} {elements : List Element} :
    (composite span type elements).Keeps V ↔ (∀ x ∈ type.typeNames, V.referent x) ∧
      ∀ e ∈ elements.flatMap (·.operands), e.Keeps V := by
  rw [keeps_iff]
  simp

end Expr

namespace Stmt

def Keeps (V : Vocabulary) (s : Stmt) : Prop :=
  ∀ part : Stmt, part.Within s → (∀ x ∈ part.boundNames, V.declared x) ∧
    (∀ x ∈ part.referents, V.referent x) ∧ ∀ e ∈ part.operands, e.Keeps V

theorem keeps_iff {s : Stmt} : s.Keeps V ↔ (∀ x ∈ s.boundNames, V.declared x) ∧
    (∀ x ∈ s.referents, V.referent x) ∧ (∀ e ∈ s.operands, e.Keeps V) ∧
      ∀ part ∈ s.parts, part.Keeps V := by
  constructor
  · intro h
    obtain ⟨bound, referents, operands⟩ := h s (.self s)
    exact ⟨bound, referents, operands, fun part mem inner within => h inner (.part mem within)⟩
  · rintro ⟨bound, referents, operands, parts⟩ part within
    cases within with
    | self => exact ⟨bound, referents, operands⟩
    | part mem within => exact parts _ mem part within

attribute [local simp] boundNames referents operands parts

@[simp]
theorem keeps_empty : (empty span).Keeps V := by
  rw [keeps_iff]
  simp

@[simp]
theorem keeps_expr {e : Expr} : (expr e).Keeps V ↔ e.Keeps V := by
  rw [keeps_iff]
  simp

@[simp]
theorem keeps_assign {targets values : List Expr} {op : AssignOp} :
    (assign span targets op values).Keeps V ↔
      (op = .define → ∀ x ∈ targets.filterMap (·.ident?), V.declared x) ∧
        (∀ e ∈ targets, e.Keeps V) ∧ ∀ e ∈ values, e.Keeps V := by
  rw [keeps_iff]
  cases op <;> simp [or_imp, forall_and]

-- Only a definition declares what it is written to.
theorem Keeps.assigned {targets values : List Expr} (ht : ∀ e ∈ targets, e.Keeps V)
    (hv : ∀ e ∈ values, e.Keeps V) : (assign span targets .assign values).Keeps V :=
  keeps_assign.2 ⟨nofun, ht, hv⟩

@[simp]
theorem keeps_step {target : Expr} {increment : Bool} :
    (step span target increment).Keeps V ↔ target.Keeps V := by
  rw [keeps_iff]
  simp

@[simp]
theorem keeps_var {names : List String} {type : Option TypeExpr} {values : List Expr} :
    (var span names type values).Keeps V ↔ (∀ x ∈ names, V.declared x) ∧
      (∀ x ∈ type.toList.flatMap (·.typeNames), V.referent x) ∧ ∀ e ∈ values, e.Keeps V := by
  rw [keeps_iff]
  simp

@[simp]
theorem keeps_ret {values : List Expr} : (ret span values).Keeps V ↔ ∀ e ∈ values, e.Keeps V := by
  rw [keeps_iff]
  simp

@[simp]
theorem keeps_block {body : Block} :
    (block body).Keeps V ↔ ∀ s ∈ body.statements, s.Keeps V := by
  rw [keeps_iff]
  simp

@[simp]
theorem keeps_ifElse {init orElse : Option Stmt} {cond : Expr} {body : Block} :
    (ifElse span init cond body orElse).Keeps V ↔ (∀ s ∈ init, s.Keeps V) ∧ cond.Keeps V ∧
      (∀ s ∈ body.statements, s.Keeps V) ∧ ∀ s ∈ orElse, s.Keeps V := by
  rw [keeps_iff]
  simp only [boundNames, referents, operands, parts, List.forall_mem_append, Option.mem_toList,
    List.mem_singleton, List.not_mem_nil, false_implies, implies_true, true_and, forall_eq]
  tauto

@[simp]
theorem keeps_forLoop {init post : Option Stmt} {cond : Option Expr} {body : Block} :
    (forLoop span init cond post body).Keeps V ↔ (∀ s ∈ init, s.Keeps V) ∧
      (∀ e ∈ cond, e.Keeps V) ∧ (∀ s ∈ post, s.Keeps V) ∧ ∀ s ∈ body.statements, s.Keeps V := by
  rw [keeps_iff]
  simp only [boundNames, referents, operands, parts, List.forall_mem_append, Option.mem_toList,
    List.not_mem_nil, false_implies, implies_true, true_and]
  tauto

@[simp]
theorem keeps_range {key value : Option Expr} {define : Bool} {iterable : Expr} {body : Block} :
    (range span key value define iterable body).Keeps V ↔
      (define = true → ∀ x ∈ (key.toList ++ value.toList).filterMap (·.ident?), V.declared x) ∧
        (∀ e ∈ key, e.Keeps V) ∧ (∀ e ∈ value, e.Keeps V) ∧ iterable.Keeps V ∧
        ∀ s ∈ body.statements, s.Keeps V := by
  rw [keeps_iff]
  simp only [boundNames, referents, operands, parts, List.forall_mem_append, Option.mem_toList]
  cases define <;> simp [and_assoc]

@[simp]
theorem keeps_switch {init : Option Stmt} {tag : Option Expr} {cases : List Case} :
    (switch span init tag cases).Keeps V ↔ (∀ s ∈ init, s.Keeps V) ∧ (∀ e ∈ tag, e.Keeps V) ∧
      ∀ c ∈ cases, (∀ e ∈ c.values, e.Keeps V) ∧ ∀ s ∈ c.body, s.Keeps V := by
  rw [keeps_iff]
  simp only [boundNames, referents, operands, parts, List.forall_mem_append, Option.mem_toList,
    List.forall_mem_flatMap, forall_and, List.not_mem_nil, false_implies, implies_true, true_and]
  tauto

end Stmt

-- A block keeps a vocabulary exactly if that has all that the block says.
theorem Block.keeps_iff {b : Block} : (∀ s ∈ b.statements, s.Keeps V) ↔
    (∀ x, b.Words x → V.word x) ∧ (∀ x, b.RefersTo x → V.referent x) ∧
      ∀ x, b.Declares x → V.declared x := by
  constructor
  · intro h
    have expr {e : Expr} (mem : b.Evaluates e) :
        (∀ w ∈ e.word?, V.word w) ∧ ∀ x ∈ e.referents, V.referent x := by
      obtain ⟨s, ⟨top, mem, within⟩, operand, stands, inside⟩ := mem
      exact (h top mem s within).2.2 operand stands e inside
    refine ⟨fun x ⟨e, mem, word⟩ => (expr mem).1 x word, fun x refers => ?_, fun x declares => ?_⟩
    · rcases refers with ⟨s, ⟨top, mem, within⟩, hx⟩ | ⟨e, mem, hx⟩
      · exact (h top mem s within).2.1 x hx
      · exact (expr mem).2 x hx
    · obtain ⟨s, ⟨top, mem, within⟩, hx⟩ := declares
      exact (h top mem s within).1 x hx
  · rintro ⟨words, referents, declared⟩ top mem s within
    have holds : b.Holds s := ⟨top, mem, within⟩
    refine ⟨fun x hx => declared x ⟨s, holds, hx⟩, fun x hx => referents x (.inl ⟨s, holds, hx⟩),
      fun operand stands e inside => ?_⟩
    have evaluates : b.Evaluates e := ⟨s, holds, operand, stands, inside⟩
    exact ⟨fun w hw => words w ⟨e, evaluates, hw⟩, fun x hx => referents x (.inr ⟨e, evaluates, hx⟩)⟩

end

-- A field of the catalog that has an accessor and a mutator.
def Catalog.Proxies (c : Catalog) (info : FieldInfo) : Prop :=
  info.isProxied ∧ ∃ e ∈ c.entities, info ∈ e.fields

-- A field that is named may be read.
def Vocabulary.HasAccessors (V : Vocabulary) (c : Catalog) : Prop :=
  ∀ info, c.Proxies info → V.word info.name → V.word info.accessor

-- What may be written, and the names in it.
def Target.Keeps (V : Vocabulary) (c : Catalog) : Target → Prop
  | blank => True
  | plain place => place.Keeps V
  | field receiver info => receiver.Keeps V ∧ c.Proxies info ∧ V.word info.name

namespace RedirectContext

variable {σ : Type} [TypeOracle σ] {r : RedirectContext} {o : σ} {V : Vocabulary}

theorem proxies_of_resolve {base : Option StaticType} {member : String} {span : Span}
    {info : FieldInfo} (h : r.resolve o base member span = .ok (.proxied info)) :
    r.scope.catalog.Proxies info ∧ info.name = member := by
  obtain ⟨proxied, _, _, _, _, found⟩ := field_of_resolve h
  obtain ⟨e, he, -, hi⟩ := Catalog.mem_of_field? found
  exact ⟨⟨proxied, e, he, hi⟩, Catalog.name_of_field? found⟩

theorem ident?_value {e : Expr} {t : TypedExpr} (h : r.value o e = .ok t) :
    t.expr.ident? = e.ident? := by
  cases e with
  | select span base member =>
    obtain ⟨base, _, ⟨info, rfl⟩ | same⟩ := ok_value_select h
    · rfl
    · rw [same]
      rfl
  | ident | literal | typeOperand =>
    simp only [value, ok_pure] at h
    exact h ▸ rfl
  | _ =>
    simp only [value, ok_bind, ok_pure] at h
    grind [Expr.ident?]

mutual

theorem value_keeps (has : V.HasAccessors r.scope.catalog) {t : TypedExpr} :
    (e : Expr) → r.value o e = .ok t → e.Keeps V → t.expr.Keeps V
  | .ident _ _, h, keeps | .literal _ _, h, keeps | .typeOperand _ _, h, keeps => by
    simp only [value, ok_pure] at h
    exact h ▸ keeps
  | .select span base member, h, keeps => by
    simp only [value, ok_bind] at h
    obtain ⟨b, hb, resolution, resolved, h⟩ := h
    obtain ⟨word, keeps⟩ := Expr.keeps_select.1 keeps
    have inner := value_keeps has base hb keeps
    cases resolution <;> obtain rfl := ok_pure.1 h
    case proxied info =>
      obtain ⟨proxies, rfl⟩ := proxies_of_resolve resolved
      simp [FieldInfo.read, Expr.ident?, inner, has info proxies word]
    all_goals exact Expr.keeps_select.2 ⟨word, inner⟩
  | .call span callee typeArgs args, h, keeps => by
    simp only [value, ok_bind, ok_pure] at h
    obtain ⟨c, hc, as, ha, rfl⟩ := h
    obtain ⟨referents, keepsCallee, keepsArgs⟩ := Expr.keeps_call.1 keeps
    rw [← ident?_value hc] at referents
    exact Expr.keeps_call.2 ⟨referents, value_keeps has callee hc keepsCallee,
      values_keep has args ha keepsArgs⟩
  | .index span base i, h, keeps => by
    simp only [value, ok_bind, ok_pure] at h
    obtain ⟨b, hb, i', hi, rfl⟩ := h
    obtain ⟨keepsBase, keepsIndex⟩ := Expr.keeps_index.1 keeps
    exact Expr.keeps_index.2 ⟨value_keeps has base hb keepsBase, value_keeps has i hi keepsIndex⟩
  | .binary span op left right, h, keeps => by
    simp only [value, ok_bind, ok_pure] at h
    obtain ⟨a, ha, b, hb, rfl⟩ := h
    obtain ⟨keepsLeft, keepsRight⟩ := Expr.keeps_binary.1 keeps
    exact Expr.keeps_binary.2 ⟨value_keeps has left ha keepsLeft,
      value_keeps has right hb keepsRight⟩
  | .unary span op operand, h, keeps => by
    simp only [value, ok_bind, ok_pure] at h
    obtain ⟨a, ha, rfl⟩ := h
    exact Expr.keeps_unary.2 (value_keeps has operand ha (Expr.keeps_unary.1 keeps))
  | .paren span inner, h, keeps => by
    simp only [value, ok_bind, ok_pure] at h
    obtain ⟨a, ha, rfl⟩ := h
    exact Expr.keeps_paren.2 (value_keeps has inner ha (Expr.keeps_paren.1 keeps))
  | .composite span type list, h, keeps => by
    simp only [value, ok_bind, ok_pure] at h
    obtain ⟨es, he, rfl⟩ := h
    obtain ⟨referents, keepsElements⟩ := Expr.keeps_composite.1 keeps
    exact Expr.keeps_composite.2 ⟨referents, elements_keep has list he keepsElements⟩

theorem values_keep (has : V.HasAccessors r.scope.catalog) {ts : List TypedExpr} :
    (es : List Expr) → r.values o es = .ok ts → (∀ e ∈ es, e.Keeps V) →
      ∀ e ∈ ts.map (·.expr), e.Keeps V
  | [], h, _ => by
    obtain rfl := ok_pure.1 h
    exact List.forall_mem_nil _
  | e :: rest, h, keeps => by
    simp only [values, ok_bind, ok_pure] at h
    obtain ⟨a, ha, as, hr, rfl⟩ := h
    obtain ⟨first, others⟩ := List.forall_mem_cons.1 keeps
    exact List.forall_mem_cons.2 ⟨value_keeps has e ha first, values_keep has rest hr others⟩

theorem elements_keep (has : V.HasAccessors r.scope.catalog) {ts : List Element} :
    (es : List Element) → r.elements o es = .ok ts →
      (∀ e ∈ es.flatMap (·.operands), e.Keeps V) → ∀ e ∈ ts.flatMap (·.operands), e.Keeps V
  | [], h, _ => by
    obtain rfl := ok_pure.1 h
    exact List.forall_mem_nil _
  | .positional value :: rest, h, keeps => by
    simp only [elements, ok_bind, ok_pure] at h
    obtain ⟨a, ha, as, hr, rfl⟩ := h
    obtain ⟨first, others⟩ := List.forall_mem_cons.1 keeps
    exact List.forall_mem_cons.2 ⟨value_keeps has value ha first, elements_keep has rest hr others⟩
  | .keyed key value :: rest, h, keeps => by
    simp only [elements, ok_bind, ok_pure] at h
    obtain ⟨k, hk, a, ha, as, hr, rfl⟩ := h
    obtain ⟨first, others⟩ := List.forall_mem_cons.1 keeps
    obtain ⟨second, others⟩ := List.forall_mem_cons.1 others
    exact List.forall_mem_cons.2 ⟨value_keeps has key hk first,
      List.forall_mem_cons.2 ⟨value_keeps has value ha second, elements_keep has rest hr others⟩⟩

end

theorem target_keeps (has : V.HasAccessors r.scope.catalog) {t : Target} :
    (e : Expr) → r.target o e = .ok t → e.Keeps V → t.Keeps V r.scope.catalog
  | .ident _ _, h, keeps => by
    simp only [target, ok_pure] at h
    subst h
    split
    · trivial
    · exact keeps
  | .paren _ inner, h, keeps =>
    target_keeps has inner (by simpa [target] using h) (Expr.keeps_paren.1 keeps)
  | .select span base member, h, keeps => by
    simp only [target, ok_bind] at h
    obtain ⟨b, hb, resolution, resolved, h⟩ := h
    obtain ⟨word, keeps⟩ := Expr.keeps_select.1 keeps
    have inner := value_keeps has base hb keeps
    cases resolution <;> obtain rfl := ok_pure.1 h
    case proxied info =>
      obtain ⟨proxies, rfl⟩ := proxies_of_resolve resolved
      exact ⟨inner, proxies, word⟩
    all_goals exact Expr.keeps_select.2 ⟨word, inner⟩
  | .literal _ _, h, keeps | .typeOperand _ _, h, keeps | .call _ _ _ _, h, keeps
  | .index _ _ _, h, keeps | .binary _ _ _ _, h, keeps | .unary _ _ _, h, keeps
  | .composite _ _ _, h, keeps => by
    simp only [target, ok_bind, ok_pure] at h
    obtain ⟨t, ht, rfl⟩ := h
    exact value_keeps has _ ht keeps

theorem targets_keep (has : V.HasAccessors r.scope.catalog) {es : List Expr} {ts : List Target}
    (h : r.targets o es = .ok ts) (keep : ∀ e ∈ es, e.Keeps V) :
    ∀ t ∈ ts, t.Keeps V r.scope.catalog := by
  rw [targets, ok_mapM] at h
  intro t ht
  obtain ⟨e, he, target⟩ := exists_of_forall₂ h.flip ht
  exact target_keeps has e target (keep e he)

end RedirectContext

end FieldAccess
