import FieldAccess.Proofs.FieldSelectors
import FieldAccess.Syntax.Names

namespace FieldAccess

namespace TypeContext

-- Two contexts that know the same of some names, and of everything else that has a type.
structure Agrees (names : List String) (c c' : TypeContext) : Prop where
  catalog : c'.catalog = c.catalog
  results : ∀ entity name,
    (c'.methods.get? entity name).map (·.results) = (c.methods.get? entity name).map (·.results)
  lookup : ∀ name ∈ names, c'.lookup? name = c.lookup? name

namespace Agrees

variable {names names' : List String} {c c' c'' : TypeContext}

theorem refl (names : List String) (c : TypeContext) : Agrees names c c :=
  ⟨rfl, fun _ _ => rfl, fun _ _ => rfl⟩

theorem trans (h : Agrees names c c') (h' : Agrees names c' c'') : Agrees names c c'' :=
  ⟨h'.catalog.trans h.catalog, fun entity name => (h'.results entity name).trans (h.results entity name),
    fun name mem => (h'.lookup name mem).trans (h.lookup name mem)⟩

theorem mono (h : Agrees names c c') (sub : names' ⊆ names) : Agrees names' c c' :=
  ⟨h.catalog, h.results, fun name mem => h.lookup name (sub mem)⟩

variable (h : Agrees names c c')
include h

theorem entityOf?_eq (type : StaticType) : c'.entityOf? type = c.entityOf? type := by
  rw [entityOf?, entityOf?, h.catalog]

theorem memberResult?_eq (entity member : String) :
    c'.memberResult? entity member = c.memberResult? entity member := by
  rw [memberResult?, memberResult?, h.catalog, MethodTable.resultType?, MethodTable.resultType?,
    h.results]

theorem typeOf?_eq : (e : Expr) → e.names ⊆ names → c'.typeOf? e = c.typeOf? e
  | .ident _ name, sub => by
    rw [typeOf?, typeOf?, h.lookup name (sub (List.mem_singleton_self _))]
  | .literal _ _, _ | .composite _ _ _, _ | .typeOperand _ _, _ => rfl
  | .select _ base _, sub => by
    simp only [typeOf?, typeOf?_eq base sub, h.entityOf?_eq, h.catalog]
  | .call _ callee _ args, sub => by
    obtain ⟨subCallee, subArgs⟩ := List.append_subset.1 sub
    match callee, args with
    | .select _ base _, _ =>
      simp only [typeOf?, typeOf?_eq base subCallee, h.entityOf?_eq, h.memberResult?_eq]
    | .ident _ name, [] => rfl
    | .ident _ name, e :: _ =>
      simp only [typeOf?, firstType?, typeOf?_eq e (List.append_subset.1 subArgs).1]
    | .paren _ (.typeOperand _ _), _ => rfl
    | .paren _ (.ident _ _), _ | .paren _ (.literal _ _), _ | .paren _ (.select _ _ _), _
    | .paren _ (.call _ _ _ _), _ | .paren _ (.index _ _ _), _ | .paren _ (.binary _ _ _ _), _
    | .paren _ (.unary _ _ _), _ | .paren _ (.paren _ _), _ | .paren _ (.composite _ _ _), _
    | .literal _ _, _ | .call _ _ _ _, _ | .index _ _ _, _ | .binary _ _ _ _, _
    | .unary _ _ _, _ | .composite _ _ _, _ | .typeOperand _ _, _ => rfl
  | .index _ base _, sub => by
    simp only [typeOf?, typeOf?_eq base (List.append_subset.1 sub).1]
  | .binary _ _ left right, sub => by
    obtain ⟨subLeft, subRight⟩ := List.append_subset.1 sub
    rw [typeOf?, typeOf?, typeOf?_eq left subLeft, typeOf?_eq right subRight]
  | .unary _ _ operand, sub => by rw [typeOf?, typeOf?, typeOf?_eq operand sub]
  | .paren _ inner, sub => by rw [typeOf?, typeOf?, typeOf?_eq inner sub]
termination_by structural e => e

end Agrees

section

variable (c : TypeContext)

theorem bindAll_methods (bs : List LocalBinding) : (c.bindAll bs).methods = c.methods := by
  induction bs generalizing c with
  | nil => rfl
  | cons b bs ih =>
    rw [bindAll, List.foldl_cons, ← bindAll, ih, bind]
    split <;> rfl

theorem lookup?_bind {b : LocalBinding} (h : b.name ≠ "_") : (c.bind b).lookup? b.name = b.type := by
  simp [bind, h, lookup?]

theorem lookup?_bind_ne {b : LocalBinding} {name : String} (h : b.name = "_" ∨ b.name ≠ name) :
    (c.bind b).lookup? name = c.lookup? name := by
  rcases h with blank | ne
  · simp [bind, blank]
  · rw [bind]
    split
    · rfl
    · simp [lookup?, ne]

theorem lookup?_bindAll_ne {bs : List LocalBinding} {name : String}
    (h : ∀ b ∈ bs, b.name = "_" ∨ b.name ≠ name) : (c.bindAll bs).lookup? name = c.lookup? name := by
  induction bs generalizing c with
  | nil => rfl
  | cons b bs ih =>
    rw [bindAll, List.foldl_cons, ← bindAll, ih _ fun b hb => h b (by simp [hb]),
      lookup?_bind_ne c (h b (by simp))]

-- What is bound under other names changes nothing.
theorem agrees_bindAll {names : List String} {bs : List LocalBinding}
    (h : ∀ b ∈ bs, b.name = "_" ∨ b.name ∉ names) : Agrees names c (c.bindAll bs) where
  catalog := bindAll_catalog c bs
  results _ _ := by rw [bindAll_methods]
  lookup _ mem := c.lookup?_bindAll_ne fun b hb => (h b hb).imp_right fun free e => free (e ▸ mem)

theorem agrees_bind {names : List String} {b : LocalBinding} (h : b.name = "_" ∨ b.name ∉ names) :
    Agrees names c (c.bind b) :=
  agrees_bindAll c (List.forall_mem_singleton.2 h)

-- The context after some statements.
def declareAll (ss : List Stmt) : TypeContext :=
  ss.foldl declare c

theorem declareAll_append (ss ss' : List Stmt) :
    c.declareAll (ss ++ ss') = (c.declareAll ss).declareAll ss' :=
  List.foldl_append

end

theorem Agrees.bindAll {names : List String} {c c' : TypeContext} (h : Agrees names c c')
    (bs : List LocalBinding) : Agrees names (c.bindAll bs) (c'.bindAll bs) := by
  induction bs generalizing c c' with
  | nil => exact h
  | cons b bs ih =>
    refine ih ⟨?_, ?_, fun name mem => ?_⟩
    · rw [bind_catalog, bind_catalog, h.catalog]
    · have methods (c : TypeContext) : (c.bind b).methods = c.methods := bindAll_methods c [b]
      simpa only [methods] using h.results
    · by_cases same : b.name = "_" ∨ b.name ≠ name
      · rw [lookup?_bind_ne c same, lookup?_bind_ne c' same, h.lookup name mem]
      · obtain ⟨named, rfl⟩ := (not_or.1 same).imp_right not_not.1
        rw [lookup?_bind c named, lookup?_bind c' named]

end TypeContext

def Expr.isIndex : Expr → Bool
  | .index _ _ _ => true
  | _ => false

theorem subset_of_mem {e : Expr} : {es : List Expr} → e ∈ es → e.names ⊆ namesOfExprs es
  | _ :: _, h => by
    rcases List.mem_cons.1 h with rfl | h
    · exact List.subset_append_left ..
    · exact List.subset_append_of_subset_right _ (subset_of_mem h)

namespace TypeContext

variable {names : List String} {c c' : TypeContext} {span : Span}

-- What the call of a declared method gives.
def callResults? (c : TypeContext) : Expr → Option (List TypeExpr)
  | .call _ callee _ _ => (c.calledMethod? callee).map (·.results)
  | _ => none

theorem Agrees.variableType?_eq (h : Agrees names c c') {e : Expr} (sub : e.names ⊆ names) :
    c'.variableType? e = c.variableType? e := by
  rw [variableType?, variableType?, h.typeOf?_eq e sub]

theorem Agrees.callResults?_eq (h : Agrees names c c') {e : Expr} (sub : e.names ⊆ names) :
    c'.callResults? e = c.callResults? e := by
  cases e with
  | call _ callee _ _ =>
    have subCallee := (List.append_subset.1 sub).1
    cases callee with
    | select _ base member =>
      have results (entity : String) := h.results entity member
      simp only [callResults?, calledMethod?, h.typeOf?_eq base subCallee]
      cases c.typeOf? base with
      | none => rfl
      | some type =>
        simp only [Option.bind_eq_bind, Option.bind_some, h.entityOf?_eq]
        cases c.entityOf? type with
        | none => rfl
        | some entity => exact results entity
    | _ => rfl
  | _ => rfl

-- The types of several variables that start with one value.
theorem definedTypes_one (c : TypeContext) (e : Expr) {count : Nat} (h : count ≠ 1) :
    c.definedTypes count [e] =
      if e.isIndex && count = 2 then [c.variableType? e, some .bool]
      else match c.callResults? e with
        | some results => if results.length = count then results.map some else List.replicate count none
        | none => List.replicate count none := by
  rw [definedTypes, if_neg (by simpa using h.symm)]
  cases e with
  | call _ callee _ _ =>
    simp only [callResults?, Expr.isIndex]
    cases c.calledMethod? callee <;> rfl
  | index => simp [Expr.isIndex, callResults?]
  | _ => rfl

theorem definedTypes_several (c : TypeContext) {es : List Expr} {count : Nat}
    (unpaired : es.length ≠ count) (several : es.length ≠ 1) :
    c.definedTypes count es = List.replicate count none := by
  rw [definedTypes, if_neg unpaired]
  rcases es with _ | ⟨e, _ | ⟨e', es⟩⟩
  · rfl
  · simp at several
  · cases e <;> rfl

-- Only these matter of the values that variables start with.
theorem definedTypes_congr {es es' : List Expr}
    (h : List.Forall₂ (fun e e' => c'.variableType? e' = c.variableType? e ∧
      e'.isIndex = e.isIndex ∧ c'.callResults? e' = c.callResults? e) es es') (count : Nat) :
    c'.definedTypes count es' = c.definedTypes count es := by
  by_cases paired : es.length = count
  · rw [definedTypes, definedTypes, if_pos paired, if_pos (h.length_eq ▸ paired)]
    clear paired
    induction h with
    | nil => rfl
    | cons first _ ih => rw [List.map_cons, List.map_cons, first.1, ih]
  · by_cases one : es.length = 1
    · obtain ⟨e, rfl⟩ := List.length_eq_one_iff.1 one
      obtain ⟨e', _, same, none, rfl⟩ := List.forall₂_cons_left_iff.1 h
      cases none
      have other : count ≠ 1 := fun e => paired e.symm
      rw [definedTypes_one c' e' other, definedTypes_one c e other, same.1, same.2.1, same.2.2]
    · rw [definedTypes_several c paired one,
        definedTypes_several c' (h.length_eq ▸ paired) (h.length_eq ▸ one)]

theorem targetBindings_idents (xs : List String) (types : List (Option TypeExpr)) :
    targetBindings (xs.map (.ident span)) types = (xs.zip types).map fun p => ⟨p.1, p.2⟩ := by
  rw [targetBindings, List.zip_map_left, List.filterMap_map, ← List.filterMap_eq_map]
  rfl

theorem lookup?_bindAll_zip {xs : List String} {types : List (Option TypeExpr)}
    (distinct : (xs.filter (· ≠ "_")).Nodup) :
    ∀ p ∈ xs.zip types, p.1 ≠ "_" →
      (c.bindAll ((xs.zip types).map fun p => ⟨p.1, p.2⟩)).lookup? p.1 = p.2 := by
  induction xs generalizing c types with
  | nil => simp
  | cons x xs ih =>
    cases types with
    | nil => simp
    | cons type types =>
      intro p mem named
      rcases List.mem_cons.1 mem with rfl | mem
      · -- The others are bound under other names, after it.
        have later : ∀ b ∈ (xs.zip types).map fun p => (⟨p.1, p.2⟩ : LocalBinding),
            b.name = "_" ∨ b.name ≠ x := by
          intro b hb
          obtain ⟨q, hq, rfl⟩ := List.mem_map.1 hb
          refine or_iff_not_imp_left.2 fun hn e => ?_
          have other := (List.of_mem_zip hq).1
          simp only [ne_eq, decide_not, List.filter_cons] at distinct
          simp_all
        exact (lookup?_bindAll_ne _ later).trans (lookup?_bind c named)
      · refine ih ?_ p mem named
        rw [List.filter_cons] at distinct
        split at distinct
        · exact (List.nodup_cons.1 distinct).2
        · exact distinct

theorem Agrees.firstUse_eq (h : Agrees names c c') {values : List Expr}
    (sub : namesOfExprs values ⊆ names) :
    values.head?.bind c'.variableType? = values.head?.bind c.variableType? := by
  cases values with
  | nil => rfl
  | cons v rest => exact h.variableType?_eq (List.append_subset.1 sub).1

theorem Agrees.bind (h : Agrees names c c') (b : LocalBinding) :
    Agrees names (c.bind b) (c'.bind b) :=
  h.bindAll [b]

theorem Agrees.varBindings_eq (type : Option TypeExpr) (xs : List String) {values : List Expr}
    (h : Agrees names c c') (sub : namesOfExprs values ⊆ names) :
    c'.varBindings type xs values = c.varBindings type xs values := by
  induction xs generalizing c c' values with
  | nil => rfl
  | cons x xs ih =>
    have rest : namesOfExprs values.tail ⊆ names := by
      cases values with
      | nil => exact sub
      | cons v rest => exact (List.append_subset.1 sub).2
    simp only [varBindings, h.firstUse_eq sub, ih (h.bind _) rest]

theorem Agrees.definedTypes_eq (h : Agrees names c c') {values : List Expr}
    (sub : namesOfExprs values ⊆ names) (count : Nat) :
    c'.definedTypes count values = c.definedTypes count values := by
  refine definedTypes_congr (List.forall₂_same.2 fun e he => ?_) count
  have sub := List.Subset.trans (subset_of_mem he) sub
  exact ⟨h.variableType?_eq sub, rfl, h.callResults?_eq sub⟩

theorem Agrees.rangeTypes?_eq (h : Agrees names c c') {e : Expr} (sub : e.names ⊆ names) :
    c'.rangeTypes? e = c.rangeTypes? e := by
  rw [rangeTypes?, rangeTypes?, h.typeOf?_eq e sub]

-- What a statement binds depends on no more than the names that occur in it.
theorem Agrees.bindingsOf_eq (h : Agrees names c c') {s : Stmt} (sub : s.names ⊆ names) :
    c'.bindingsOf s = c.bindingsOf s := by
  cases s with
  | var _ xs type values => exact h.varBindings_eq type xs (List.append_subset.1 sub).2
  | assign _ targets op values =>
    cases op with
    | define => simp only [bindingsOf, h.definedTypes_eq (List.append_subset.1 sub).2]
    | assign | compound => rfl
  | range _ key value define iterable body =>
    cases define with
    | true =>
      have sub := (List.append_subset.1 (List.append_subset.1 sub).1).2
      simp only [bindingsOf, h.rangeTypes?_eq sub]
    | false => rfl
  | _ => rfl

end TypeContext

namespace RedirectContext

open TypeContext

variable {names : List String} {c c' : TypeContext} {r : RedirectContext}

theorem resolve_eq (h : Agrees names c c') (base : Option StaticType) (member : String) (span : Span) :
    r.resolve c' base member span = r.resolve c base member span := by
  have isField (type : TypeExpr) : TypeOracle.isField c' type member =
      TypeOracle.isField c type member := by
    change type.namedTarget?.any (fun entity => (c'.catalog.field? entity member).isSome) =
      type.namedTarget?.any fun entity => (c.catalog.field? entity member).isSome
    rw [h.catalog]
  unfold resolve
  simp only [isField]

mutual

theorem value_eq (h : Agrees names c c') : (e : Expr) → e.names ⊆ names → r.value c' e = r.value c e
  | .ident span name, sub => by
    have type : TypeOracle.typeOf? c' (.ident span name) = TypeOracle.typeOf? c (.ident span name) :=
      h.typeOf?_eq _ sub
    simp only [value, type]
  | .literal _ _, _ | .typeOperand _ _, _ => rfl
  | .select span base member, sub => by
    have type : TypeOracle.typeOf? c' (.select span base member) =
      TypeOracle.typeOf? c (.select span base member) := h.typeOf?_eq _ sub
    simp only [value, value_eq h base sub, resolve_eq h, type]
  | .call span callee typeArgs args, sub => by
    have type : TypeOracle.typeOf? c' (.call span callee typeArgs args) =
      TypeOracle.typeOf? c (.call span callee typeArgs args) := h.typeOf?_eq _ sub
    obtain ⟨subCallee, subArgs⟩ := List.append_subset.1 sub
    simp only [value, value_eq h callee subCallee, values_eq h args subArgs, type]
  | .index span base i, sub => by
    have type : TypeOracle.typeOf? c' (.index span base i) =
      TypeOracle.typeOf? c (.index span base i) := h.typeOf?_eq _ sub
    obtain ⟨subBase, subIndex⟩ := List.append_subset.1 sub
    simp only [value, value_eq h base subBase, value_eq h i subIndex, type]
  | .binary span op left right, sub => by
    have type : TypeOracle.typeOf? c' (.binary span op left right) =
      TypeOracle.typeOf? c (.binary span op left right) := h.typeOf?_eq _ sub
    obtain ⟨subLeft, subRight⟩ := List.append_subset.1 sub
    simp only [value, value_eq h left subLeft, value_eq h right subRight, type]
  | .unary span op operand, sub => by
    have type : TypeOracle.typeOf? c' (.unary span op operand) =
      TypeOracle.typeOf? c (.unary span op operand) := h.typeOf?_eq _ sub
    simp only [value, value_eq h operand sub, type]
  | .paren span inner, sub => by simp only [value, value_eq h inner sub]
  | .composite span type list, sub => by simp only [value, elements_eq h list sub]
termination_by structural e => e

theorem values_eq (h : Agrees names c c') :
    (es : List Expr) → namesOfExprs es ⊆ names → r.values c' es = r.values c es
  | [], _ => rfl
  | e :: rest, sub => by
    obtain ⟨first, others⟩ := List.append_subset.1 sub
    simp only [values, value_eq h e first, values_eq h rest others]
termination_by structural es => es

theorem elements_eq (h : Agrees names c c') :
    (es : List Element) → namesOfElements es ⊆ names → r.elements c' es = r.elements c es
  | [], _ => rfl
  | .positional v :: rest, sub => by
    obtain ⟨first, others⟩ := List.append_subset.1 sub
    simp only [elements, value_eq h v first, elements_eq h rest others]
  | .keyed k v :: rest, sub => by
    obtain ⟨first, others⟩ := List.append_subset.1 sub
    obtain ⟨key, value⟩ := List.append_subset.1 first
    simp only [elements, value_eq h k key, value_eq h v value, elements_eq h rest others]
termination_by structural es => es

end

theorem target_eq (h : Agrees names c c') : (e : Expr) → e.names ⊆ names → r.target c' e = r.target c e
  | .ident _ _, _ => rfl
  | .paren _ inner, sub => target_eq h inner sub
  | .select _ base _, sub => by simp only [target, value_eq h base sub, resolve_eq h]
  | .literal _ _, _ | .typeOperand _ _, _ => rfl
  | .call span callee typeArgs args, sub => by
    simp only [target, value_eq h (.call span callee typeArgs args) sub]
  | .index span base i, sub => by simp only [target, value_eq h (.index span base i) sub]
  | .binary span op left right, sub => by
    simp only [target, value_eq h (.binary span op left right) sub]
  | .unary span op operand, sub => by
    simp only [target, value_eq h (.unary span op operand) sub]
  | .composite span type list, sub => by
    simp only [target, value_eq h (.composite span type list) sub]
termination_by structural e => e

end RedirectContext

end FieldAccess
