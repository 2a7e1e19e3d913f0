import FieldAccess.Proofs.Success
import FieldAccess.Redirect.Method

namespace FieldAccess

namespace Expr

mutual

def accesses : Expr → List Expr
  | ident _ _ | literal _ _ | typeOperand _ _ => []
  | select span base member => select span base member :: base.accesses
  | call span callee typeArgs args =>
    call span callee typeArgs args :: (callee.accesses ++ accessesOfList args)
  | index _ base i => base.accesses ++ i.accesses
  | binary _ _ left right => left.accesses ++ right.accesses
  | unary _ _ operand => operand.accesses
  | paren _ inner => inner.accesses
  | composite _ _ elements => accessesOfElements elements

def accessesOfList : List Expr → List Expr
  | [] => []
  | e :: rest => e.accesses ++ accessesOfList rest

def accessesOfElements : List Element → List Expr
  | [] => []
  | .positional value :: rest => value.accesses ++ accessesOfElements rest
  | .keyed key value :: rest => key.accesses ++ value.accesses ++ accessesOfElements rest

end

theorem accessesOfList_eq (es : List Expr) : accessesOfList es = es.flatMap accesses := by
  induction es <;> simp_all [accessesOfList]

end Expr

mutual

def Stmt.accesses : Stmt → List Expr
  | .empty _ | .breakLoop _ | .continueLoop _ => []
  | .expr e => e.accesses
  | .assign _ targets _ values => targets.flatMap Expr.accesses ++ values.flatMap Expr.accesses
  | .step _ target _ => target.accesses
  | .var _ _ _ values => values.flatMap Expr.accesses
  | .block body => body.accesses
  | .ifElse _ init cond body orElse =>
    accessesOfOption init ++ cond.accesses ++ body.accesses ++ accessesOfOption orElse
  | .forLoop _ init cond post body =>
    accessesOfOption init ++ cond.toList.flatMap Expr.accesses ++ accessesOfOption post ++
      body.accesses
  | .range _ key value _ iterable body =>
    key.toList.flatMap Expr.accesses ++ value.toList.flatMap Expr.accesses ++ iterable.accesses ++
      body.accesses
  | .switch _ init tag cases =>
    accessesOfOption init ++ tag.toList.flatMap Expr.accesses ++ accessesOfCases cases
  | .ret _ values => values.flatMap Expr.accesses

def Block.accesses : Block → List Expr
  | .mk _ statements => accessesOfStmts statements

def accessesOfOption : Option Stmt → List Expr
  | none => []
  | some s => s.accesses

def accessesOfStmts : List Stmt → List Expr
  | [] => []
  | s :: rest => s.accesses ++ accessesOfStmts rest

def accessesOfCases : List Case → List Expr
  | [] => []
  | .mk _ values body :: rest =>
    values.flatMap Expr.accesses ++ accessesOfStmts body ++ accessesOfCases rest

end

inductive Use where
  | read
  | write
deriving DecidableEq, Repr

-- A selector `base.member` that the walk comes to, and what is known about types there.
structure Visit (σ : Type) where
  oracle : σ
  use : Use
  span : Span
  base : Expr
  member : String

namespace Visit

section

variable {σ : Type} (o : σ)

def selector (v : Visit σ) : Expr :=
  .select v.span v.base v.member

mutual

def reads : Expr → List (Visit σ)
  | .ident _ _ | .literal _ _ | .typeOperand _ _ => []
  | .select span base member => ⟨o, .read, span, base, member⟩ :: reads base
  | .call _ callee _ args => reads callee ++ readsOfList args
  | .index _ base i => reads base ++ reads i
  | .binary _ _ left right => reads left ++ reads right
  | .unary _ _ operand => reads operand
  | .paren _ inner => reads inner
  | .composite _ _ elements => readsOfElements elements

def readsOfList : List Expr → List (Visit σ)
  | [] => []
  | e :: rest => reads e ++ readsOfList rest

def readsOfElements : List Element → List (Visit σ)
  | [] => []
  | .positional value :: rest => reads value ++ readsOfElements rest
  | .keyed key value :: rest => reads key ++ reads value ++ readsOfElements rest

end

def writes : Expr → List (Visit σ)
  | .ident _ _ => []
  | .paren _ inner => writes inner
  | .select span base member => ⟨o, .write, span, base, member⟩ :: reads o base
  | e => reads o e

def ofAssign (targets values : List Expr) : List (Visit σ) :=
  targets.flatMap (writes o) ++ readsOfList o values

-- The selectors in a statement that may stand in a header. Others are left alone there.
def ofSimple : Stmt → List (Visit σ)
  | .expr e => reads o e
  | .assign _ targets .assign values => ofAssign o targets values
  | .assign _ _ .define values => readsOfList o values
  | .assign _ targets (.compound op) values =>
    if Stmt.areRepeatable targets then
      let (targets, values) := Stmt.expandCompound op targets values
      ofAssign o targets values
    else match targets, values with
    | [target], [value] => writes o target ++ reads o value
    | _, _ => []
  | .step span target increment =>
    if target.isCallFree then ofAssign o [target] [Stmt.steppedValue span target increment]
    else writes o target
  | _ => []

end

variable {σ : Type} [TypeOracle σ]

mutual

def ofStmt (o : σ) (s : Stmt) : List (Visit σ) :=
  match s with
  | .empty _ | .breakLoop _ | .continueLoop _ => []
  | .expr _ | .assign _ _ _ _ | .step _ _ _ => ofSimple o s
  | .var _ _ _ values | .ret _ values => readsOfList o values
  | .block body => ofBlock o body
  | .ifElse _ init cond body orElse =>
    let inner := TypeOracle.declareHeader o init
    init.toList.flatMap (ofSimple o) ++ reads inner cond ++ ofBlock inner body ++
      ofBranch inner orElse
  | .forLoop _ init cond post body =>
    let inner := TypeOracle.declareHeader o init
    init.toList.flatMap (ofSimple o) ++ cond.toList.flatMap (reads inner) ++
      post.toList.flatMap (ofSimple inner) ++ ofBlock inner body
  | .range _ key value define iterable body =>
    let inner := TypeOracle.declare o s
    reads o iterable ++
      (if define then []
       else key.toList.flatMap (writes inner) ++ value.toList.flatMap (writes inner)) ++
      ofBlock inner body
  | .switch _ init tag cases =>
    let inner := TypeOracle.declareHeader o init
    init.toList.flatMap (ofSimple o) ++ tag.toList.flatMap (reads inner) ++ ofCases inner cases

-- An else branch is a block or a further `if`; anything else is left alone.
def ofBranch (o : σ) : Option Stmt → List (Visit σ)
  | none => []
  | some s =>
    match s with
    | .ifElse _ _ _ _ _ | .block _ => ofStmt o s
    | _ => []

def ofBlock (o : σ) : Block → List (Visit σ)
  | .mk _ statements => ofStmts o statements

def ofStmts (o : σ) : List Stmt → List (Visit σ)
  | [] => []
  | s :: rest => ofStmt o s ++ ofStmts (TypeOracle.declare o s) rest

def ofCases (o : σ) : List Case → List (Visit σ)
  | [] => []
  | .mk _ values body :: rest => readsOfList o values ++ ofStmts o body ++ ofCases o rest

end

variable {r : RedirectContext} {out out' : List Expr}

-- The selector is evaluated, and its redirected form is among the expressions.
def ReadIn (r : RedirectContext) (out : List Expr) (v : Visit σ) : Prop :=
  v.use = .read ∧ ∃ t, r.value v.oracle v.selector = .ok t ∧ t.expr ∈ out

theorem ReadIn.mono {v : Visit σ} (h : v.ReadIn r out) (sub : out ⊆ out') : v.ReadIn r out' :=
  have ⟨hu, t, ht, hm⟩ := h
  ⟨hu, t, ht, sub hm⟩

end Visit

namespace RedirectContext

open Visit

variable {σ : Type} [TypeOracle σ] {r : RedirectContext} {o : σ}

-- The redirected form of a selector is a selector or a call, in which its redirected base stands.
theorem value_select {span : Span} {base : Expr} {member : String} {t : TypedExpr}
    (h : r.value o (.select span base member) = .ok t) :
    ∃ b, r.value o base = .ok b ∧ t.expr ∈ t.expr.accesses ∧ b.expr.accesses ⊆ t.expr.accesses := by
  simp only [value, ok_bind] at h
  obtain ⟨b, hb, res, hr, ht⟩ := h
  refine ⟨b, hb, ?_⟩
  cases res <;> obtain rfl := ok_pure.1 ht
  case proxied info =>
    simp [FieldInfo.read, Expr.accesses, Expr.accessesOfList]
  all_goals simp [Expr.accesses]

mutual

-- All selectors of an evaluated expression are redirected, and nothing of them is lost.
theorem value_reads {t : TypedExpr} :
    (e : Expr) → r.value o e = .ok t → ∀ v ∈ reads o e, v.ReadIn r t.expr.accesses
  | .ident _ _, _, v, hv | .literal _ _, _, v, hv | .typeOperand _ _, _, v, hv => by
    simp [reads] at hv
  | .select span base member, h, v, hv => by
    obtain ⟨b, hb, self, sub⟩ := value_select h
    rcases List.mem_cons.1 hv with rfl | hv
    · exact ⟨rfl, t, h, self⟩
    · exact (value_reads base hb v hv).mono sub
  | .call span callee typeArgs args, h, v, hv => by
    simp only [value, ok_bind, ok_pure] at h
    obtain ⟨c, hc, as, ha, ht⟩ := h
    subst ht
    rcases List.mem_append.1 hv with hv | hv
    · exact (value_reads callee hc v hv).mono (by simp [Expr.accesses])
    · exact (values_reads args ha v hv).mono (by simp [Expr.accesses])
  | .index span base i, h, v, hv => by
    simp only [value, ok_bind, ok_pure] at h
    obtain ⟨b, hb, i', hi, ht⟩ := h
    subst ht
    rcases List.mem_append.1 hv with hv | hv
    · exact (value_reads base hb v hv).mono (by simp [Expr.accesses])
    · exact (value_reads i hi v hv).mono (by simp [Expr.accesses])
  | .binary span op left right, h, v, hv => by
    simp only [value, ok_bind, ok_pure] at h
    obtain ⟨a, ha, b, hb, ht⟩ := h
    subst ht
    rcases List.mem_append.1 hv with hv | hv
    · exact (value_reads left ha v hv).mono (by simp [Expr.accesses])
    · exact (value_reads right hb v hv).mono (by simp [Expr.accesses])
  | .unary span op operand, h, v, hv => by
    simp only [value, ok_bind, ok_pure] at h
    obtain ⟨a, ha, ht⟩ := h
    subst ht
    exact (value_reads operand ha v hv).mono (by simp [Expr.accesses])
  | .paren span inner, h, v, hv => by
    simp only [value, ok_bind, ok_pure] at h
    obtain ⟨a, ha, ht⟩ := h
    subst ht
    exact (value_reads inner ha v hv).mono (by simp [Expr.accesses])
  | .composite span type list, h, v, hv => by
    simp only [value, ok_bind, ok_pure] at h
    obtain ⟨es, he, ht⟩ := h
    subst ht
    exact (elements_reads list he v hv).mono (by simp [Expr.accesses])

theorem values_reads {ts : List TypedExpr} :
    (es : List Expr) → r.values o es = .ok ts →
      ∀ v ∈ readsOfList o es, v.ReadIn r (Expr.accessesOfList (ts.map (·.expr)))
  | [], _, v, hv => by simp [readsOfList] at hv
  | e :: rest, h, v, hv => by
    simp only [values, ok_bind, ok_pure] at h
    obtain ⟨a, ha, as, has, ht⟩ := h
    subst ht
    rcases List.mem_append.1 hv with hv | hv
    · exact (value_reads e ha v hv).mono (by simp [Expr.accessesOfList])
    · exact (values_reads rest has v hv).mono (by simp [Expr.accessesOfList])

theorem elements_reads {ts : List Element} :
    (es : List Element) → r.elements o es = .ok ts →
      ∀ v ∈ readsOfElements o es, v.ReadIn r (Expr.accessesOfElements ts)
  | [], _, v, hv => by simp [readsOfElements] at hv
  | .positional value :: rest, h, v, hv => by
    simp only [elements, ok_bind, ok_pure] at h
    obtain ⟨a, ha, as, has, ht⟩ := h
    subst ht
    rcases List.mem_append.1 hv with hv | hv
    · exact (value_reads value ha v hv).mono (by simp [Expr.accessesOfElements])
    · exact (elements_reads rest has v hv).mono (by simp [Expr.accessesOfElements])
  | .keyed key value :: rest, h, v, hv => by
    simp only [elements, ok_bind, ok_pure] at h
    obtain ⟨k, hk, a, ha, as, has, ht⟩ := h
    subst ht
    rcases List.mem_append.1 hv with hv | hv
    · rcases List.mem_append.1 hv with hv | hv
      · exact (value_reads key hk v hv).mono (by simp [Expr.accessesOfElements])
      · exact (value_reads value ha v hv).mono (by simp [Expr.accessesOfElements])
    · exact (elements_reads rest has v hv).mono (by simp [Expr.accessesOfElements])

end

end RedirectContext

end FieldAccess
