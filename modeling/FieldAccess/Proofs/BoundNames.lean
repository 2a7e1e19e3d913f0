import FieldAccess.Proofs.FieldSelectors
import FieldAccess.Proofs.SettledBodies

namespace FieldAccess

-- A point of a method: the types that are known there, and the names that the statements before it
-- bind, in the blocks, the headers and the loops around it. A loop over elements that has ended is
-- among these statements, as the walk takes its variables for variables of the block.
structure Point where
  types : TypeContext
  bound : List String

namespace Point

instance : TypeOracle Point where
  typeOf? p := p.types.typeOf?
  isField p := TypeOracle.isField p.types
  declare p s := ⟨p.types.declare s, s.boundNames ++ p.bound⟩

-- The name has the type, unless a statement has bound it.
def Types (x : String) (type : TypeExpr) (p : Point) : Prop :=
  x ∉ p.bound → p.types.lookup? x = some type

theorem stable_types (x : String) (type : TypeExpr) : Visit.Stable (Types x type) := by
  intro p s before free
  obtain ⟨own, earlier⟩ := not_or.1 (mt List.mem_append.2 free)
  have agrees : p.types.Agrees [x] (p.types.declare s) := by
    refine TypeContext.agrees_declare fun y hy => .inr fun same => own ?_
    exact List.mem_singleton.1 same ▸ hy
  exact (agrees.lookup x (List.mem_singleton_self x)).trans (before earlier)

end Point

namespace Visit

variable {σ τ : Type} (h : σ → τ)

-- The same selector, with less known about types.
def forget (v : Visit σ) : Visit τ :=
  ⟨h v.oracle, v.use, v.span, v.base, v.member⟩

section

variable (o : σ)

mutual

theorem forget_reads : (e : Expr) → reads (h o) e = (reads o e).map (forget h)
  | .ident _ _ | .literal _ _ | .typeOperand _ _ => rfl
  | .select _ base _ => congrArg (_ :: ·) (forget_reads base)
  | .call _ callee _ args => by
    simp only [reads, List.map_append, forget_reads callee, forget_readsOfList args]
  | .index _ base i => by simp only [reads, List.map_append, forget_reads base, forget_reads i]
  | .binary _ _ left right => by
    simp only [reads, List.map_append, forget_reads left, forget_reads right]
  | .unary _ _ operand => forget_reads operand
  | .paren _ inner => forget_reads inner
  | .composite _ _ elements => forget_readsOfElements elements

theorem forget_readsOfList :
    (es : List Expr) → readsOfList (h o) es = (readsOfList o es).map (forget h)
  | [] => rfl
  | e :: rest => by simp only [readsOfList, List.map_append, forget_reads e, forget_readsOfList rest]

theorem forget_readsOfElements :
    (es : List Element) → readsOfElements (h o) es = (readsOfElements o es).map (forget h)
  | [] => rfl
  | .positional value :: rest => by
    simp only [readsOfElements, List.map_append, forget_reads value, forget_readsOfElements rest]
  | .keyed key value :: rest => by
    simp only [readsOfElements, List.map_append, forget_reads key, forget_reads value,
      forget_readsOfElements rest]

end

theorem forget_writes (e : Expr) : writes (h o) e = (writes o e).map (forget h) := by
  induction e using writes.induct with
  | case1 => rfl
  | case2 _ inner ih => exact ih
  | case3 span base member => exact congrArg (_ :: ·) (forget_reads h o base)
  | case4 e h₁ h₂ h₃ => rw [writes.eq_4 _ e h₁ h₂ h₃, writes.eq_4 _ e h₁ h₂ h₃, forget_reads]

theorem forget_targets (es : List Expr) :
    es.flatMap (writes (h o)) = (es.flatMap (writes o)).map (forget h) := by
  rw [List.map_flatMap, funext (forget_writes h o)]

theorem forget_option (e : Option Expr) :
    e.toList.flatMap (reads (h o)) = (e.toList.flatMap (reads o)).map (forget h) := by
  rw [List.map_flatMap, funext (forget_reads h o)]

theorem forget_ofAssign (targets values : List Expr) :
    ofAssign (h o) targets values = (ofAssign o targets values).map (forget h) := by
  simp only [ofAssign, List.map_append, forget_targets, forget_readsOfList]

theorem forget_ofSimple (s : Stmt) : ofSimple (h o) s = (ofSimple o s).map (forget h) := by
  cases s with
  | expr e => exact forget_reads h o e
  | assign span targets op values =>
    cases op with
    | assign => exact forget_ofAssign h o targets values
    | define => exact forget_readsOfList h o values
    | compound op =>
      simp only [ofSimple]
      split
      · exact forget_ofAssign ..
      · split
        · simp only [List.map_append, forget_writes, forget_reads]
        · rfl
  | step span target increment =>
    simp only [ofSimple]
    split
    · exact forget_ofAssign ..
    · exact forget_writes h o target
  | _ => rfl

theorem forget_header (s : Option Stmt) :
    s.toList.flatMap (ofSimple (h o)) = (s.toList.flatMap (ofSimple o)).map (forget h) := by
  rw [List.map_flatMap, funext (forget_ofSimple h o)]

end

section

variable [TypeOracle σ] [TypeOracle τ]

-- What is known moves from one statement to the next in the same way.
def Declares (h : σ → τ) : Prop :=
  ∀ o s, h (TypeOracle.declare o s) = TypeOracle.declare (h o) s

variable {h}

theorem forget_declareHeader (declares : Declares h) (o : σ) (s : Option Stmt) :
    TypeOracle.declareHeader (h o) s = h (TypeOracle.declareHeader o s) := by
  cases s
  · rfl
  · exact (declares ..).symm

mutual

-- The walk comes to the same selectors.
theorem forget_ofStmt (declares : Declares h) (o : σ) :
    (s : Stmt) → ofStmt (h o) s = (ofStmt o s).map (forget h)
  | .empty _ | .breakLoop _ | .continueLoop _ => rfl
  | .expr e => forget_reads h o e
  | .assign span targets op values => forget_ofSimple h o (.assign span targets op values)
  | .step span target increment => forget_ofSimple h o (.step span target increment)
  | .var _ _ _ values | .ret _ values => forget_readsOfList h o values
  | .block body => forget_ofBlock declares o body
  | .ifElse _ init cond body orElse => by
    simp only [ofStmt, List.map_append, forget_declareHeader declares, forget_header h,
      forget_reads h, forget_ofBlock declares _ body, forget_ofBranch declares _ orElse]
  | .forLoop _ init cond post body => by
    simp only [ofStmt, List.map_append, forget_declareHeader declares, forget_header h,
      forget_option h, forget_ofBlock declares _ body]
  | .range _ key value define iterable body => by
    simp only [ofStmt, List.map_append, ← declares _ _, forget_reads h,
      forget_ofBlock declares _ body]
    split
    · rfl
    · simp only [List.map_append, forget_targets h]
  | .switch _ init tag cases => by
    simp only [ofStmt, List.map_append, forget_declareHeader declares, forget_header h,
      forget_option h, forget_ofCases declares _ cases]
termination_by structural s => s

theorem forget_ofBranch (declares : Declares h) (o : σ) :
    (s : Option Stmt) → ofBranch (h o) s = (ofBranch o s).map (forget h)
  | none => rfl
  | some s => by
    have same := forget_ofStmt declares o s
    simp only [ofBranch]
    split
    · exact same
    · exact same
    · rfl
termination_by structural s => s

theorem forget_ofBlock (declares : Declares h) (o : σ) :
    (b : Block) → ofBlock (h o) b = (ofBlock o b).map (forget h)
  | .mk _ statements => forget_ofStmts declares o statements
termination_by structural b => b

theorem forget_ofStmts (declares : Declares h) (o : σ) :
    (ss : List Stmt) → ofStmts (h o) ss = (ofStmts o ss).map (forget h)
  | [] => rfl
  | s :: rest => by
    simp only [ofStmts, List.map_append, forget_ofStmt declares o s, ← declares _ _,
      forget_ofStmts declares _ rest]
termination_by structural ss => ss

theorem forget_ofCases (declares : Declares h) (o : σ) :
    (cs : List Case) → ofCases (h o) cs = (ofCases o cs).map (forget h)
  | [] => rfl
  | .mk _ values body :: rest => by
    simp only [ofCases, List.map_append, forget_readsOfList h, forget_ofStmts declares o body,
      forget_ofCases declares o rest]
termination_by structural cs => cs

end

end

end Visit

namespace FuncDecl

variable {f : FuncDecl} {catalog : Catalog} {methods : MethodTable}

variable (f catalog methods) in
-- The selectors that the redirection of a method visits, each with the names bound before it.
def points : List (Visit Point) :=
  Visit.ofBlock ⟨TypeContext.ofMethod catalog methods f.expand, []⟩ f.expand.body

theorem mem_visits_of_points {v : Visit Point} (h : v ∈ f.points catalog methods) :
    v.forget Point.types ∈ f.visits catalog methods := by
  rw [visits, show TypeContext.ofMethod catalog methods f.expand =
    Point.types ⟨TypeContext.ofMethod catalog methods f.expand, []⟩ from rfl,
    Visit.forget_ofBlock (h := Point.types) fun _ _ => rfl]
  exact List.mem_map_of_mem h

-- A method starts with the types of its receiver and its parameters.
theorem lookup?_receiver {recv : Param} (received : f.receiver = some recv) (named : recv.name ≠ "_")
    (apart : ∀ p ∈ f.params, p.name ≠ recv.name) :
    (TypeContext.ofMethod catalog methods f).lookup? recv.name = some recv.type := by
  rw [TypeContext.ofMethod, TypeContext.parameterBindings, received, Option.toList_some,
    List.singleton_append, List.map_cons, TypeContext.bindAll, List.foldl_cons,
    ← TypeContext.bindAll, TypeContext.lookup?_bindAll_ne _ ?_, TypeContext.lookup?_bind]
  · exact named
  · simp only [List.mem_map]
    rintro _ ⟨p, hp, rfl⟩
    exact .inr (apart p hp)

theorem lookup?_of_not_bound {recv : Param} (received : f.receiver = some recv)
    (named : recv.name ≠ "_") (apart : ∀ p ∈ f.params, p.name ≠ recv.name) {v : Visit Point}
    (hv : v ∈ f.points catalog methods) (free : recv.name ∉ v.oracle.bound) :
    v.oracle.types.lookup? recv.name = some recv.type :=
  Visit.oracle_of_mem_ofBlock (Point.stable_types recv.name recv.type)
    (fun _ => lookup?_receiver (f := f.expand) received named apart) _ hv free

end FuncDecl

end FieldAccess
