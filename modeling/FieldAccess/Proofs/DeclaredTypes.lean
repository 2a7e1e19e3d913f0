import FieldAccess.Proofs.TypeAgreement

namespace FieldAccess

namespace TypeContext

variable {c : TypeContext} {s : Stmt} {x : String} {type : Option TypeExpr}

-- The last binding stands first. The blank name is not bound.
theorem bindings_bindAll (c : TypeContext) (bs : List LocalBinding) :
    (c.bindAll bs).bindings = (bs.filter (·.name ≠ "_")).reverse ++ c.bindings := by
  induction bs generalizing c with
  | nil => rfl
  | cons b bs ih =>
    rw [bindAll, List.foldl_cons, ← bindAll, ih, bind]
    split <;> simp_all

-- A statement binds a name in the innermost scope, which is in front of all that was bound before.
structure Binds (c : TypeContext) (s : Stmt) (x : String) (type : Option TypeExpr) : Prop where
  innermost : ∃ new, (c.declare s).bindings = new ++ c.bindings ∧ x ∈ new.map (·.name)
  lookup : (c.declare s).lookup? x = type

theorem binds_iff : c.Binds s x type ↔
    (x ≠ "_" ∧ x ∈ (c.bindingsOf s).map (·.name)) ∧ (c.declare s).lookup? x = type := by
  have front := c.bindings_bindAll (c.bindingsOf s)
  have mem : x ∈ (((c.bindingsOf s).filter (·.name ≠ "_")).reverse).map (·.name) ↔
      x ≠ "_" ∧ x ∈ (c.bindingsOf s).map (·.name) := by
    simp only [List.mem_map, List.mem_reverse, List.mem_filter]
    grind
  constructor
  · rintro ⟨⟨new, same, bound⟩, lookup⟩
    obtain rfl := List.append_cancel_right (same.symm.trans front)
    exact ⟨mem.1 bound, lookup⟩
  · exact fun ⟨bound, lookup⟩ => ⟨⟨_, front, mem.2 bound⟩, lookup⟩

-- What a statement does not bind keeps its type.
theorem binds_or_lookup?_eq (c : TypeContext) (s : Stmt) (x : String) :
    c.Binds s x ((c.declare s).lookup? x) ∨ (c.declare s).lookup? x = c.lookup? x := by
  by_cases bound : x ≠ "_" ∧ x ∈ (c.bindingsOf s).map (·.name)
  · exact .inl (binds_iff.2 ⟨bound, rfl⟩)
  · refine .inr (c.lookup?_bindAll_ne fun b hb => ?_)
    by_contra other
    obtain ⟨named, rfl⟩ := (not_or.1 other).imp_right not_not.1
    exact bound ⟨named, List.mem_map_of_mem hb⟩

section

variable {span : Span} {targets values : List Expr} {names : List String}

theorem targetBindings_names (h : targets.map (·.ident?) = names.map some)
    (types : List (Option TypeExpr)) :
    targetBindings targets types = (names.zip types).map fun p => ⟨p.1, p.2⟩ := by
  induction targets generalizing names types with
  | nil =>
    obtain rfl := List.map_eq_nil_iff.1 h.symm
    rfl
  | cons e targets ih =>
    obtain ⟨x, names, rfl, hx, rest⟩ := List.map_eq_cons_iff.1 h.symm
    cases types with
    | nil => rfl
    | cons type types =>
      have same := ih rest.symm types
      simp only [targetBindings] at same ⊢
      simp [← hx, same]

theorem take_append_cons_drop {α : Type} {l : List α} {i : Nat} {a : α} (h : l[i]? = some a) :
    l.take i ++ a :: l.drop (i + 1) = l := by
  obtain ⟨hi, rfl⟩ := List.getElem?_eq_some_iff.1 h
  rw [List.getElem_cons_drop, List.take_append_drop]

-- Each name that a `:=` statement has on its left gets the type in its place.
theorem binds_define_iff (idents : targets.map (·.ident?) = names.map some)
    (distinct : (names.filter (· ≠ "_")).Nodup) (named : x ≠ "_") :
    c.Binds (.assign span targets .define values) x type ↔
      ∃ i : Nat, names[i]? = some x ∧ (c.definedTypes names.length values)[i]? = some type := by
  have count : targets.length = names.length := by simpa using congrArg List.length idents
  have bindings : c.bindingsOf (.assign span targets .define values) =
      (names.zip (c.definedTypes names.length values)).map fun p => ⟨p.1, p.2⟩ := by
    rw [bindingsOf, count, targetBindings_names idents]
  have lookup (p) (mem : p ∈ names.zip (c.definedTypes names.length values)) (hp : p.1 ≠ "_") :
      (c.declare (.assign span targets .define values)).lookup? p.1 = p.2 := by
    rw [declare, bindings]
    exact lookup?_bindAll_zip distinct p mem hp
  rw [binds_iff, bindings]
  constructor
  · rintro ⟨⟨-, bound⟩, given⟩
    obtain ⟨b, hb, rfl⟩ := List.mem_map.1 bound
    obtain ⟨⟨y, type'⟩, mem, rfl⟩ := List.mem_map.1 hb
    obtain rfl : type' = type := (lookup _ mem named).symm.trans given
    obtain ⟨i, hi⟩ := List.mem_iff_getElem?.1 mem
    exact ⟨i, List.getElem?_zip_eq_some.1 hi⟩
  · rintro ⟨i, hx, ht⟩
    have mem : (x, type) ∈ names.zip (c.definedTypes names.length values) :=
      List.mem_of_getElem? (List.getElem?_zip_eq_some.2 ⟨hx, ht⟩)
    exact ⟨⟨named, List.mem_map.2 ⟨_, List.mem_map_of_mem mem, rfl⟩⟩, lookup _ mem named⟩

theorem varBindings_append (c : TypeContext) (type : Option TypeExpr) (xs ys : List String)
    {us vs : List Expr} (h : xs.length = us.length) :
    c.varBindings type (xs ++ ys) (us ++ vs) =
      c.varBindings type xs us ++ (c.bindAll (c.varBindings type xs us)).varBindings type ys vs := by
  induction xs generalizing c us with
  | nil =>
    obtain rfl := List.length_eq_zero_iff.1 h.symm
    rfl
  | cons x xs ih =>
    obtain ⟨u, us, rfl⟩ := List.exists_cons_of_length_eq_add_one h.symm
    simp only [List.cons_append, varBindings, List.tail_cons, List.head?_cons]
    rw [ih _ (Nat.succ.inj h)]
    rfl

theorem map_name_varBindings (c : TypeContext) (type : Option TypeExpr) (xs : List String)
    (us : List Expr) : (c.varBindings type xs us).map (·.name) = xs := by
  induction xs generalizing c us with
  | nil => rfl
  | cons x xs ih => simp [varBindings, ih]

-- A name of a `var` statement gets the type that its value has once the names before are declared.
theorem binds_var {v : Expr} {xs : List String} {us : List Expr} {ys : List String}
    {vs : List Expr} (h : xs.length = us.length) (last : x ∉ ys) (named : x ≠ "_") :
    c.Binds (.var span (xs ++ x :: ys) none (us ++ v :: vs)) x
      ((c.declare (.var span xs none us)).variableType? v) := by
  refine binds_iff.2 ⟨⟨named, ?_⟩, ?_⟩
  · simp [bindingsOf, map_name_varBindings]
  · -- The names after it are others.
    have others : ∀ b ∈ varBindings (((c.declare (.var span xs none us)).bind
        ⟨x, (c.declare (.var span xs none us)).variableType? v⟩)) none ys vs,
        b.name = "_" ∨ b.name ≠ x := fun b hb => .inr fun e => last <| by
      rw [← e, ← map_name_varBindings _ none ys vs]
      exact List.mem_map_of_mem hb
    rw [declare, bindingsOf, varBindings_append c none xs (x :: ys) h, bindAll, List.foldl_append]
    exact (lookup?_bindAll_ne _ others).trans (lookup?_bind _ named)

-- The values of a `:=` statement are typed in the state before it, whatever it declares. The value in
-- place `i` of a `var` statement is typed once the names before it are declared, which is the same as
-- long as it does not mention these.
theorem declared_types {i : Nat} {v : Expr} (count : names.length = values.length)
    (distinct : (names.filter (· ≠ "_")).Nodup) (hx : names[i]? = some x) (hv : values[i]? = some v)
    (named : x ≠ "_") :
    (∀ (span : Span) (targets : List Expr), targets.map (·.ident?) = names.map some →
      c.Binds (.assign span targets .define values) x (c.variableType? v)) ∧
    ∀ span : Span,
      let before := c.declare (.var span (names.take i) none (values.take i))
      c.Binds (.var span names none values) x (before.variableType? v) ∧
        ((∀ y ∈ names.take i, y ∉ v.names) → before.variableType? v = c.variableType? v) := by
  refine ⟨fun span targets idents => ?_, fun span => ⟨?_, fun unmentioned => ?_⟩⟩
  · refine (binds_define_iff idents distinct named).2 ⟨i, hx, ?_⟩
    rw [definedTypes, if_pos count.symm, List.getElem?_map, hv]
    rfl
  · have lengths : (names.take i).length = (values.take i).length := by simp [count]
    have kept : decide (x ≠ "_") = true := decide_eq_true named
    have other : x ∉ names.drop (i + 1) := by
      rw [← take_append_cons_drop hx, List.filter_append, List.nodup_append,
        List.filter_cons_of_pos (p := (decide <| · ≠ "_")) kept, List.nodup_cons] at distinct
      exact fun mem => distinct.2.1.1 (List.mem_filter.2 ⟨mem, kept⟩)
    conv in Stmt.var span names none values =>
      rw [← take_append_cons_drop hx, ← take_append_cons_drop hv]
    exact binds_var lengths other named
  · have agrees : c.Agrees v.names (c.declare (.var span (names.take i) none (values.take i))) := by
      refine agrees_bindAll c fun b hb => .inr (unmentioned b.name ?_)
      rw [← map_name_varBindings c none (names.take i) (values.take i)]
      exact List.mem_map_of_mem hb
    exact agrees.variableType?_eq (List.Subset.refl _)

end

-- Over the statements of a block, a name keeps its type exactly if no statement gives it another.
theorem keeps_type_iff {t : TypeExpr} (known : c.lookup? x = some t) (ss : List Stmt) :
    (∀ n, (c.declareAll (ss.take n)).lookup? x = some t) ↔
      ∀ (n : Nat) (s : Stmt) (type : Option TypeExpr), ss[n]? = some s →
        (c.declareAll (ss.take n)).Binds s x type → type = some t := by
  have step {n : Nat} {s : Stmt} (hs : ss[n]? = some s) :
      c.declareAll (ss.take (n + 1)) = (c.declareAll (ss.take n)).declare s := by
    rw [List.take_add_one, hs, declareAll_append]
    rfl
  constructor
  · intro kept n s type hs binds
    rw [← binds.lookup, ← step hs, kept]
  · intro given n
    induction n with
    | zero => exact known
    | succ n ih =>
      cases hs : ss[n]? with
      | none => rwa [List.take_add_one, hs, Option.toList_none, List.append_nil]
      | some s =>
        rw [step hs]
        rcases binds_or_lookup?_eq (c.declareAll (ss.take n)) s x with binds | same
        · exact given n s _ hs binds
        · exact same.trans ih

-- A `:=` statement gives the type in its place to each of its names, to those that the innermost
-- scope has already as to the new ones. So a name of known type keeps it over a block exactly if
-- each statement that has the name on its left gives it that type again.
theorem redeclared_types {t : TypeExpr} (known : c.lookup? x = some t) (ss : List Stmt) :
    ((∀ n, (c.declareAll (ss.take n)).lookup? x = some t) ↔
      ∀ (n : Nat) (s : Stmt) (type : Option TypeExpr), ss[n]? = some s →
        (c.declareAll (ss.take n)).Binds s x type → type = some t) ∧
    ∀ (n : Nat) (span : Span) (targets values : List Expr) (names : List String),
      ss[n]? = some (.assign span targets .define values) →
      targets.map (·.ident?) = names.map some → (names.filter (· ≠ "_")).Nodup →
      ∀ (y : String) (type : Option TypeExpr), y ≠ "_" →
        ((c.declareAll (ss.take n)).Binds (.assign span targets .define values) y type ↔
          ∃ i : Nat, names[i]? = some y ∧
            ((c.declareAll (ss.take n)).definedTypes names.length values)[i]? = some type) :=
  ⟨keeps_type_iff known ss, fun _ _ _ _ _ _ idents distinct _ _ named =>
    binds_define_iff idents distinct named⟩

end TypeContext

namespace FuncDecl

def onOrder (params : List Param) (statements : List Stmt) : FuncDecl where
  doc := none
  receiver := some ⟨"o", .pointer (.named "Order")⟩
  name := "F"
  typeParams := []
  params := params
  results := [.int]
  body := .mk .nowhere statements
  span := .nowhere

def ledgerOrder : EntityFields where
  entity := { name := "Order", fields := [{ name := "total", type := "int" }] }
  fields := [⟨"Order", { name := "total", type := "int" }, .proxied (.primitive "int" "GetInt")⟩]

def pointerToOrder : TypeExpr :=
  .pointer (.named "Order")

-- The method `func (o *Order) F(a *Order, xs []int) int`. In an inner block it has `var a, b = xs,
-- a` and reads `b.total`.
def shadowing : FuncDecl :=
  let name (x : String) : Expr := .ident .nowhere x
  onOrder [⟨"a", pointerToOrder⟩, ⟨"xs", .slice .int⟩]
    [.block (.mk .nowhere
      [.var .nowhere ["a", "b"] none [name "xs", name "a"],
       .assign .nowhere [name "_"] .assign [name "a"],
       .ret .nowhere [.select .nowhere (name "b") "total"]])]

-- The method `func (o *Order) F(xs []int) int`. It has `b := o`, then `b, ys := find(), xs`, and
-- reads `b.total`.
def redeclaring : FuncDecl :=
  let name (x : String) : Expr := .ident .nowhere x
  onOrder [⟨"xs", .slice .int⟩]
    [.assign .nowhere [name "b"] .define [name "o"],
     .assign .nowhere [name "b", name "ys"] .define [.callNamed "find" [] .nowhere, name "xs"],
     .assign .nowhere [name "_"] .assign [name "ys"],
     .ret .nowhere [.select .nowhere (name "b") "total"]]

end FuncDecl

namespace TypeContext

open FuncDecl

-- In `a, b := xs, a` the second value is the `a` from before.
theorem declared_types_shadowing :
    let name (x : String) : Expr := .ident .nowhere x
    (ofMethod ledger ⟨[]⟩ shadowing).Binds
      (.assign .nowhere [name "a", name "b"] .define [name "xs", name "a"]) "b"
      (some pointerToOrder) := by
  intro name
  have count : ["a", "b"].length = [name "xs", name "a"].length := rfl
  exact (declared_types count (by decide) (i := 1) rfl rfl (by decide)).1 .nowhere
    [name "a", name "b"] rfl

-- In `var a, b = xs, a` it is the new one, so that `b` is taken for a slice and `b.total` stays as it
-- is.
theorem shadowed_value_mistyped :
    let catalog := (Catalog.build ledgerSchema .standard {}).value
    let name (x : String) : Expr := .ident .nowhere x
    let c := ofMethod catalog ⟨[]⟩ shadowing
    c.variableType? (name "a") = some pointerToOrder ∧
    ¬c.Binds (.var .nowhere ["a", "b"] none [name "xs", name "a"]) "b" (c.variableType? (name "a")) ∧
    shadowing.redirect catalog ⟨[]⟩ .standard = .ok shadowing := by
  rw [build_ledgerSchema]
  refine ⟨rfl, fun binds => ?_, ?_⟩
  · exact absurd binds.lookup (by decide)
  · rw [redirect_eq, redirectScope_own (e := ledgerOrder) rfl (by decide) (by decide)]
    rfl

theorem redeclared_types_again :
    let name (x : String) : Expr := .ident .nowhere x
    let c := ofMethod ledger ⟨[]⟩ redeclaring
    c.lookup? "o" = some pointerToOrder ∧
    c.Binds (.assign .nowhere [name "o", name "n"] .define [name "o", name "xs"]) "o"
      (some pointerToOrder) := by
  intro name c
  have known : c.lookup? "o" = some pointerToOrder := rfl
  let s : Stmt := .assign .nowhere [name "o", name "n"] .define [name "o", name "xs"]
  exact ⟨known, ((redeclared_types known [s]).2 0 .nowhere _ _ ["o", "n"] rfl rfl (by decide) "o" _
    (by decide)).2 ⟨0, rfl, rfl⟩⟩

-- The second statement only assigns to the `b` of the first, but `b` has no type after it, and
-- `b.total` stays as it is.
theorem redeclared_type_lost :
    let catalog := (Catalog.build ledgerSchema .standard {}).value
    let name (x : String) : Expr := .ident .nowhere x
    let first : Stmt := .assign .nowhere [name "b"] .define [name "o"]
    let second : Stmt :=
      .assign .nowhere [name "b", name "ys"] .define [.callNamed "find" [] .nowhere, name "xs"]
    let outer := ofMethod catalog ⟨[]⟩ redeclaring
    outer.Binds first "b" (some pointerToOrder) ∧
    (outer.declare first).bindings.all (·.name ≠ "ys") ∧
    ((outer.declare first).declare second).lookup? "b" ≠ some pointerToOrder ∧
    redeclaring.redirect catalog ⟨[]⟩ .standard = .ok redeclaring := by
  rw [build_ledgerSchema]
  refine ⟨binds_iff.2 (by decide), by decide, by decide, ?_⟩
  rw [redirect_eq, redirectScope_own (e := ledgerOrder) rfl (by decide) (by decide)]
  rfl

end TypeContext

end FieldAccess
