import FieldAccess.Proofs.FieldSelectors
import FieldAccess.Proofs.RedirectTwice

namespace FieldAccess

namespace Expr

-- A target without the parentheses around it. The blank name keeps them.
def bareTarget (e : Expr) : Expr :=
  if e.unparen.isBlank then e else e.unparen

-- What is written to if that is no field.
def plainTarget (e : Expr) : Target :=
  if e.unparen.isBlank then .blank else .plain e.unparen

@[simp]
theorem isField_plainTarget (e : Expr) : e.plainTarget.isField = false := by
  unfold plainTarget
  split <;> rfl

@[simp]
theorem place_plainTarget (e : Expr) : e.plainTarget.place e = e.bareTarget := by
  unfold plainTarget bareTarget
  split <;> rfl

end Expr

namespace Stmt

-- A statement that may stand in a header, with bare targets. What defines its targets writes to
-- nothing, and a compound assignment writes to one target.
def bareSimple : Stmt → Stmt
  | .assign span targets .assign values => .assign span (targets.map Expr.bareTarget) .assign values
  | .assign span [target] (.compound op) [value] =>
    .assign span [target.bareTarget] (.compound op) [value]
  | .step span target increment => .step span target.bareTarget increment
  | s => s

mutual

-- A statement in which all that is written to is bare.
def bare : Stmt → Stmt
  | .block body => .block (bareBlock body)
  | .ifElse span init cond body orElse =>
    .ifElse span (init.map bareSimple) cond (bareBlock body) (bareBranch orElse)
  | .forLoop span init cond post body =>
    .forLoop span (init.map bareSimple) cond (post.map bareSimple) (bareBlock body)
  | .range span key value define iterable body =>
    if define then .range span key value define iterable (bareBlock body)
    else .range span (key.map Expr.bareTarget) (value.map Expr.bareTarget) define iterable
      (bareBlock body)
  | .switch span init tag cases => .switch span (init.map bareSimple) tag (bareCases cases)
  | s => s.bareSimple

-- An else branch is a block or a further `if`; anything else is left alone.
def bareBranch : Option Stmt → Option Stmt
  | none => none
  | some s =>
    match s with
    | .ifElse _ _ _ _ _ | .block _ => some (bare s)
    | _ => some s

def bareBlock : Block → Block
  | .mk span statements => .mk span (bareList statements)

def bareList : List Stmt → List Stmt
  | [] => []
  | s :: rest => bare s :: bareList rest

def bareCases : List Case → List Case
  | [] => []
  | .mk span values body :: rest => .mk span values (bareList body) :: bareCases rest

end

end Stmt

-- A block in which all that is written to is bare.
def Block.bare (b : Block) : Block :=
  Stmt.bareBlock b

namespace Visit

-- The selector is no field of the scope, or one that needs no accessor.
def Passes (r : RedirectContext) (v : Visit TypeContext) : Prop :=
  r.Passes (v.oracle.typeOf? v.base) v.member

-- The selector denotes a field of an entity.
def IsField (v : Visit TypeContext) (entity : String) (info : FieldInfo) : Prop :=
  ∃ type, v.oracle.typeOf? v.base = some (.known type) ∧ type.namedTarget? = some entity ∧
    v.oracle.catalog.field? entity v.member = some info

end Visit

namespace TypeContext

theorem declareHeader_catalog (c : TypeContext) (s : Option Stmt) :
    (TypeOracle.declareHeader c s).catalog = c.catalog := by
  cases s
  · rfl
  · exact declare_catalog c _

end TypeContext

namespace RedirectContext

open Visit TypeContext

variable {r : RedirectContext} {c : TypeContext} {temps : Temporaries}

mutual

-- An expression in which no field is selected that has an accessor stays as it is.
theorem value_plain (hr : r.scope.catalog = c.catalog) :
    (e : Expr) → (∀ v ∈ reads c e, v.Passes r) → r.Settled c e
  | .ident _ name, _ => .ident name
  | .literal _ value, _ => .literal value
  | .typeOperand _ _, _ => rfl
  | .select _ base _, h =>
    have ⟨here, inner⟩ := List.forall_mem_cons.1 h
    .select hr (value_plain hr base inner) here
  | .call _ callee _ args, h =>
    have ⟨ofCallee, ofArgs⟩ := List.forall_mem_append.1 h
    .call (value_plain hr callee ofCallee) (values_plain hr args ofArgs)
  | .index _ base i, h =>
    have ⟨ofBase, ofIndex⟩ := List.forall_mem_append.1 h
    .index (value_plain hr base ofBase) (value_plain hr i ofIndex)
  | .binary _ _ left right, h =>
    have ⟨ofLeft, ofRight⟩ := List.forall_mem_append.1 h
    .binary (value_plain hr left ofLeft) (value_plain hr right ofRight)
  | .unary _ _ operand, h => .unary (value_plain hr operand h)
  | .paren _ inner, h => .paren (value_plain hr inner h)
  | .composite _ _ list, h => .composite (elements_plain hr list h)

theorem values_plain (hr : r.scope.catalog = c.catalog) :
    (es : List Expr) → (∀ v ∈ readsOfList c es, v.Passes r) → ∀ e ∈ es, r.Settled c e
  | [], _ => List.forall_mem_nil _
  | e :: rest, h =>
    have ⟨first, others⟩ := List.forall_mem_append.1 h
    List.forall_mem_cons.2 ⟨value_plain hr e first, values_plain hr rest others⟩

theorem elements_plain (hr : r.scope.catalog = c.catalog) :
    (es : List Element) → (∀ v ∈ readsOfElements c es, v.Passes r) → r.elements c es = .ok es
  | [], _ => rfl
  | .positional value :: rest, h => by
    obtain ⟨first, others⟩ := List.forall_mem_append.1 h
    rw [elements, value_plain hr value first, elements_plain hr rest others]
    rfl
  | .keyed key value :: rest, h => by
    obtain ⟨first, others⟩ := List.forall_mem_append.1 h
    obtain ⟨ofKey, ofValue⟩ := List.forall_mem_append.1 first
    rw [elements, value_plain hr key ofKey, value_plain hr value ofValue,
      elements_plain hr rest others]
    rfl

end

theorem option_plain (hr : r.scope.catalog = c.catalog) (e : Option Expr)
    (h : ∀ v ∈ e.toList.flatMap (reads c), v.Passes r) : r.value? c e = .ok e := by
  cases e with
  | none => rfl
  | some e =>
    rw [value?, value_plain hr e (by simpa using h)]
    rfl

-- What is written to stays as well, but for its parentheses.
theorem target_plain (hr : r.scope.catalog = c.catalog) :
    (e : Expr) → (∀ v ∈ writes c e, v.Passes r) → r.target c e = .ok e.plainTarget
  | .ident _ name, _ => by
    rw [target, Expr.plainTarget, Expr.unparen]
    · split <;> rfl
    · simp
  | .paren _ inner, h => target_plain hr inner h
  | .select _ base _, h =>
    have ⟨here, inner⟩ := List.forall_mem_cons.1 h
    PlaceSettled.select hr (value_plain hr base inner) here
  | .literal _ _, h | .typeOperand _ _, h | .call _ _ _ _, h | .index _ _ _, h
  | .binary _ _ _ _, h | .unary _ _ _, h | .composite _ _ _, h =>
    PlaceSettled.of_settled (value_plain hr _ h) rfl

theorem targets_plain (hr : r.scope.catalog = c.catalog) (es : List Expr)
    (h : ∀ v ∈ es.flatMap (writes c), v.Passes r) :
    r.targets c es = .ok (es.map Expr.plainTarget) := by
  rw [targets, ok_mapM]
  induction es with
  | nil => exact .nil
  | cons e es ih =>
    rw [List.flatMap_cons] at h
    obtain ⟨first, others⟩ := List.forall_mem_append.1 h
    exact .cons (target_plain hr e first) (ih others)

theorem place_plainTargets (es : List Expr) :
    (es.map Expr.plainTarget).zipWith (fun t e => t.place e) es = es.map Expr.bareTarget := by
  induction es with
  | nil => rfl
  | cons e es ih => simp only [List.map_cons, List.zipWith_cons_cons, Expr.place_plainTarget, ih]

section

variable {span : Span} {target value : Expr} {targets values : List Expr} {op : AssignOp}

theorem planAssign_plain (hr : r.scope.catalog = c.catalog)
    (h : ∀ v ∈ ofAssign c targets values, v.Passes r) :
    r.planAssign c span targets values temps =
      .ok (.keep (.assign span (targets.map Expr.bareTarget) .assign values), temps) := by
  obtain ⟨written, read⟩ := List.forall_mem_append.1 h
  obtain ⟨vs, found, same⟩ := Settled.values (values_plain hr values read)
  simp only [planAssign, Redirecting.ok_bind, Redirecting.ok_lift]
  refine ⟨_, _, ⟨targets_plain hr targets written, rfl⟩, vs, _, ⟨found, rfl⟩, ?_⟩
  rw [if_neg (by simp), place_plainTargets, same]
  rfl

theorem planCompound_plain (hr : r.scope.catalog = c.catalog) {op : BinaryOp}
    {form : Expr → Expr → Stmt} (written : ∀ v ∈ writes c target, v.Passes r)
    (read : ∀ v ∈ reads c value, v.Passes r) :
    r.planCompound c span target op value form temps =
      .ok (.keep (form target.bareTarget value), temps) := by
  simp only [planCompound, Redirecting.ok_bind, Redirecting.ok_lift]
  refine ⟨_, _, ⟨target_plain hr target written, rfl⟩, _, _, ⟨value_plain hr value read, rfl⟩, ?_⟩
  rw [← Expr.place_plainTarget]
  generalize target.plainTarget = t, target.isField_plainTarget = plain
  cases t <;> first | rfl | cases plain

theorem plan_plain (hr : r.scope.catalog = c.catalog)
    (expanded : (Stmt.assign span targets op values).expand = .assign span targets op values)
    (h : ∀ v ∈ ofSimple c (.assign span targets op values), v.Passes r) :
    r.plan c span targets op values temps =
      .ok (.keep (Stmt.assign span targets op values).bareSimple, temps) := by
  cases op with
  | assign => exact planAssign_plain hr h
  | define =>
    obtain ⟨vs, found, same⟩ := Settled.values (values_plain hr values h)
    simp only [plan, Redirecting.ok_bind, Redirecting.ok_lift, Redirecting.ok_pure]
    exact ⟨vs, _, ⟨found, rfl⟩, by rw [same]; rfl, rfl⟩
  | compound op =>
    have once : ¬Stmt.areRepeatable targets := by
      intro repeatable
      rw [Stmt.expand, if_pos repeatable] at expanded
      injection expanded with _ _ other
      cases other
    unfold plan
    dsimp only
    rw [if_neg once]
    -- Only one target and one value are looked at.
    rcases targets with _ | ⟨target, _ | _⟩ <;> rcases values with _ | ⟨value, _ | _⟩
    case cons.nil.cons.nil =>
      rw [ofSimple, if_neg once] at h
      obtain ⟨written, read⟩ := List.forall_mem_append.1 h
      exact planCompound_plain hr written read
    all_goals rfl

theorem planStep_plain (hr : r.scope.catalog = c.catalog) {increment : Bool}
    (expanded : (Stmt.step span target increment).expand = .step span target increment)
    (h : ∀ v ∈ ofSimple c (.step span target increment), v.Passes r) :
    r.planStep c span target increment temps =
      .ok (.keep (.step span target.bareTarget increment), temps) := by
  have calls : ¬target.isCallFree := by
    intro callFree
    rw [Stmt.expand, if_pos callFree] at expanded
    cases expanded
  rw [ofSimple, if_neg calls] at h
  rw [planStep, if_neg calls]
  exact planCompound_plain hr h (List.forall_mem_nil _)

end

-- Nothing leaves a header.
theorem header_plain (hr : r.scope.catalog = c.catalog) (place : Header) (s : Option Stmt)
    (expanded : Stmt.expandOption s = s)
    (h : ∀ v ∈ s.toList.flatMap (ofSimple c), v.Passes r) :
    r.header c place s temps = .ok ({ header := s.map Stmt.bareSimple }, temps) := by
  rcases s with _ | s
  · rfl
  rw [Stmt.expandOption, Option.some.injEq] at expanded
  rw [Option.toList_some, List.flatMap_singleton] at h
  cases s
  case assign =>
    simp only [header, Redirecting.ok_bind, Redirecting.ok_lift]
    exact ⟨_, _, plan_plain hr expanded h, rfl, rfl⟩
  case step =>
    simp only [header, Redirecting.ok_bind, Redirecting.ok_lift]
    exact ⟨_, _, planStep_plain hr expanded h, rfl, rfl⟩
  case expr e =>
    simp only [header, Redirecting.ok_bind, Redirecting.ok_lift, Redirecting.ok_pure]
    exact ⟨_, _, ⟨value_plain hr e h, rfl⟩, rfl, rfl⟩
  all_goals rfl

theorem rangeHeader_plain (hr : r.scope.catalog = c.catalog) (span : Span) (key value : Option Expr)
    (type : Option StaticType)
    (h : ∀ v ∈ key.toList.flatMap (writes c) ++ value.toList.flatMap (writes c), v.Passes r) :
    r.rangeHeader c span key value type temps =
      .ok (⟨key.map Expr.bareTarget, value.map Expr.bareTarget, false, []⟩, temps) := by
  obtain ⟨ofKey, ofValue⟩ := List.forall_mem_append.1 h
  have resolved (e : Option Expr) (he : ∀ v ∈ e.toList.flatMap (writes c), v.Passes r) :
      (e.mapM (fun e => (liftM (r.target c e) : Redirecting Target))) temps =
        .ok (e.map Expr.plainTarget, temps) :=
    ok_mapM_target.2 ⟨by cases e <;> exact targets_plain hr _ he, rfl⟩
  simp only [rangeHeader, Redirecting.ok_bind]
  refine ⟨_, _, resolved key ofKey, _, _, resolved value ofValue, ?_⟩
  cases key <;> cases value <;> simp [Redirecting.ok_pure]

mutual

-- Every statement stays one statement.
theorem stmt_plain {c : TypeContext} {temps : Temporaries} (hr : r.scope.catalog = c.catalog)
    (elseIf : Bool) : (s : Stmt) → s.expand = s → (∀ v ∈ ofStmt c s, v.Passes r) →
      r.stmt c elseIf s temps = .ok ([s.bare], temps)
  | .empty _, _, _ | .breakLoop _, _, _ | .continueLoop _, _, _ => rfl
  | .expr e, _, h => by
    simp only [stmt, Redirecting.ok_bind, Redirecting.ok_lift, Redirecting.ok_pure]
    exact ⟨_, _, ⟨value_plain hr e h, rfl⟩, rfl, rfl⟩
  | .assign span targets op values, expanded, h => by
    simp only [stmt, Redirecting.ok_bind, Redirecting.ok_pure]
    exact ⟨_, _, plan_plain hr expanded h, rfl, rfl⟩
  | .step span target increment, expanded, h => by
    simp only [stmt, Redirecting.ok_bind, Redirecting.ok_pure]
    exact ⟨_, _, planStep_plain hr expanded h, rfl, rfl⟩
  | .var span names type values, _, h => by
    obtain ⟨vs, found, same⟩ := Settled.values (values_plain hr values h)
    simp only [stmt, Redirecting.ok_bind, Redirecting.ok_lift, Redirecting.ok_pure]
    exact ⟨vs, _, ⟨found, rfl⟩, by rw [same]; rfl, rfl⟩
  | .ret span values, _, h => by
    obtain ⟨vs, found, same⟩ := Settled.values (values_plain hr values h)
    simp only [stmt, Redirecting.ok_bind, Redirecting.ok_lift, Redirecting.ok_pure]
    exact ⟨vs, _, ⟨found, rfl⟩, by rw [same]; rfl, rfl⟩
  | .block body, expanded, h => by
    simp only [Stmt.expand, Stmt.block.injEq] at expanded
    simp only [stmt, Redirecting.ok_bind, Redirecting.ok_pure]
    exact ⟨_, _, block_plain hr body expanded h, rfl, rfl⟩
  | .ifElse span init cond body orElse, expanded, h => by
    simp only [Stmt.expand, Stmt.ifElse.injEq, true_and] at expanded
    obtain ⟨ofInit, ofBody, ofElse⟩ := expanded
    simp only [ofStmt, List.forall_mem_append] at h
    obtain ⟨⟨⟨inInit, inCond⟩, inBody⟩, inElse⟩ := h
    have inner := hr.trans (declareHeader_catalog c init).symm
    simp only [stmt, Redirecting.ok_bind, Redirecting.ok_lift, Redirecting.ok_pure]
    exact ⟨_, _, header_plain hr _ init ofInit inInit, _, _, ⟨value_plain inner cond inCond, rfl⟩,
      _, _, block_plain inner body ofBody inBody, _, _, branch_plain inner orElse ofElse inElse,
      rfl, rfl⟩
  | .forLoop span init cond post body, expanded, h => by
    simp only [Stmt.expand, Stmt.forLoop.injEq, true_and] at expanded
    obtain ⟨ofInit, ofPost, ofBody⟩ := expanded
    simp only [ofStmt, List.forall_mem_append] at h
    obtain ⟨⟨⟨inInit, inCond⟩, inPost⟩, inBody⟩ := h
    have inner := hr.trans (declareHeader_catalog c init).symm
    simp only [stmt, Redirecting.ok_bind, Redirecting.ok_lift]
    refine ⟨_, _, header_plain hr _ init ofInit inInit, _, _, ⟨option_plain inner cond inCond, rfl⟩,
      _, _, header_plain inner _ post ofPost inPost, ?_⟩
    rw [if_neg (by simp)]
    simp only [Redirecting.ok_bind, Redirecting.ok_pure]
    refine ⟨_, _, block_plain inner body ofBody inBody, ?_, rfl⟩
    cases body
    simp [Stmt.bare, Stmt.bareBlock, Block.span, Block.statements]
  | .range span key value define iterable body, expanded, h => by
    simp only [Stmt.expand, Stmt.range.injEq, true_and] at expanded
    simp only [ofStmt, List.forall_mem_append] at h
    obtain ⟨⟨inIterable, inTargets⟩, inBody⟩ := h
    have inner := hr.trans
      (TypeContext.declare_catalog c (.range span key value define iterable body)).symm
    have walked (temps : Temporaries) : r.block _ body temps = .ok (Stmt.bareBlock body, temps) :=
      block_plain inner body expanded inBody
    simp only [stmt, Redirecting.ok_bind, Redirecting.ok_lift]
    refine ⟨_, _, ⟨value_plain hr iterable inIterable, rfl⟩, ?_⟩
    cases define
    case true =>
      simp only [if_true, Redirecting.ok_bind, Redirecting.ok_pure]
      exact ⟨_, _, ⟨rfl, rfl⟩, _, _, walked _, by cases body; rfl, rfl⟩
    case false =>
      simp only [Bool.false_eq_true, if_false, Redirecting.ok_bind, Redirecting.ok_pure]
      exact ⟨_, _, rangeHeader_plain inner span key value _ inTargets, _, _, walked _,
        by cases body; rfl, rfl⟩
  | .switch span init tag cases, expanded, h => by
    simp only [Stmt.expand, Stmt.switch.injEq, true_and] at expanded
    obtain ⟨ofInit, ofCases⟩ := expanded
    simp only [ofStmt, List.forall_mem_append] at h
    obtain ⟨⟨inInit, inTag⟩, inCases⟩ := h
    have inner := hr.trans (declareHeader_catalog c init).symm
    simp only [stmt, Redirecting.ok_bind, Redirecting.ok_lift, Redirecting.ok_pure]
    exact ⟨_, _, header_plain hr _ init ofInit inInit, _, _, ⟨option_plain inner tag inTag, rfl⟩,
      _, _, cases_plain inner cases ofCases inCases, rfl, rfl⟩
termination_by structural s => s

theorem branch_plain {c : TypeContext} {temps : Temporaries} (hr : r.scope.catalog = c.catalog) :
    (s : Option Stmt) → Stmt.expandOption s = s → (∀ v ∈ ofBranch c s, v.Passes r) →
      r.branch c s temps = .ok (Stmt.bareBranch s, temps)
  | none, _, _ => rfl
  | some s, expanded, h => by
    rw [Stmt.expandOption, Option.some.injEq] at expanded
    have walked : (∀ v ∈ ofStmt c s, v.Passes r) → r.stmt c true s temps = .ok ([s.bare], temps) :=
      stmt_plain hr true s expanded
    cases s
    case ifElse | block =>
      simp only [branch, Redirecting.ok_bind, Redirecting.ok_pure]
      exact ⟨_, _, walked h, rfl, rfl⟩
    all_goals rfl
termination_by structural s => s

theorem block_plain {c : TypeContext} {temps : Temporaries} (hr : r.scope.catalog = c.catalog) :
    (b : Block) → Stmt.expandBlock b = b → (∀ v ∈ ofBlock c b, v.Passes r) →
      r.block c b temps = .ok (Stmt.bareBlock b, temps)
  | .mk span statements, expanded, h => by
    simp only [Stmt.expandBlock, Block.mk.injEq, true_and] at expanded
    simp only [block, Redirecting.ok_bind, Redirecting.ok_pure]
    exact ⟨_, _, stmts_plain hr statements expanded h, rfl, rfl⟩
termination_by structural b => b

theorem stmts_plain {c : TypeContext} {temps : Temporaries} (hr : r.scope.catalog = c.catalog) :
    (ss : List Stmt) → Stmt.expandList ss = ss → (∀ v ∈ ofStmts c ss, v.Passes r) →
      r.stmts c ss temps = .ok (Stmt.bareList ss, temps)
  | [], _, _ => rfl
  | s :: rest, expanded, h => by
    simp only [Stmt.expandList, List.cons.injEq] at expanded
    obtain ⟨first, others⟩ := List.forall_mem_append.1 h
    have later := hr.trans (TypeContext.declare_catalog c s).symm
    simp only [stmts, Redirecting.ok_bind, Redirecting.ok_pure]
    exact ⟨_, _, stmt_plain hr false s expanded.1 first, _, _,
      stmts_plain later rest expanded.2 others, rfl, rfl⟩
termination_by structural ss => ss

theorem cases_plain {c : TypeContext} {temps : Temporaries} (hr : r.scope.catalog = c.catalog) :
    (cs : List Case) → Stmt.expandCases cs = cs → (∀ v ∈ ofCases c cs, v.Passes r) →
      r.caseList c cs temps = .ok (Stmt.bareCases cs, temps)
  | [], _, _ => rfl
  | .mk span values body :: rest, expanded, h => by
    simp only [Stmt.expandCases, List.cons.injEq, Case.mk.injEq, true_and] at expanded
    simp only [ofCases, List.forall_mem_append] at h
    obtain ⟨⟨inValues, inBody⟩, others⟩ := h
    obtain ⟨vs, found, same⟩ := Settled.values (values_plain hr values inValues)
    simp only [caseList, Redirecting.ok_bind, Redirecting.ok_lift, Redirecting.ok_pure]
    exact ⟨vs, _, ⟨found, rfl⟩, _, _, stmts_plain hr body expanded.1 inBody, _, _,
      cases_plain hr rest expanded.2 others, by rw [same]; rfl, rfl⟩
termination_by structural cs => cs

end

end RedirectContext

namespace FuncDecl

variable {f : FuncDecl} {catalog : Catalog} {methods : MethodTable} {settings : Settings}

theorem passes_of_direct {scope : RedirectScope}
    (hs : f.redirectScope catalog methods = .ok scope) {v : Visit TypeContext}
    (hv : v ∈ f.visits catalog methods)
    (direct : ∀ entity info, v.IsField entity info → f.Touches catalog methods entity →
      info.access = .direct) : v.Passes ⟨f.name, scope, settings⟩ := by
  obtain ⟨hc, inScope⟩ := mem_redirectScope hs
  intro info found
  obtain ⟨type, entity, known, named, listed, field⟩ := RedirectContext.fieldOf?_eq_some found
  have isField : v.IsField entity info := by
    rw [hc, ← visits_catalog hv] at field
    exact ⟨type, known, named, field⟩
  exact direct entity info isField ((inScope entity).1 listed)

-- A method of an entity whose selectors denote no fields, or such as need no accessor, is redirected
-- and stays the same. Fields of entities that the method does not touch make no difference. What a
-- selector denotes is what the walk resolves it to, which is not what the language says after a loop
-- over elements that uses a name again.
theorem redirect_plain {entity : String} (own : f.receiverEntity? = some entity)
    (known : catalog.hasEntity entity)
    (direct : ∀ v ∈ f.visits catalog methods, ∀ entity info, v.IsField entity info →
      f.Touches catalog methods entity → info.access = .direct) :
    f.redirect catalog methods settings = .ok { f.expand with body := f.expand.body.bare } := by
  obtain ⟨scope, hs⟩ : ∃ scope, f.redirectScope catalog methods = .ok scope :=
    exists_redirectScope own known
  have hr : scope.catalog = (TypeContext.ofMethod catalog methods f.expand).catalog :=
    (mem_redirectScope hs).1.trans (TypeContext.ofMethod_catalog catalog methods f.expand).symm
  have walked : RedirectContext.block ⟨f.name, scope, settings⟩
      (TypeContext.ofMethod catalog methods f.expand) f.expand.body (.ofMethod f.expand) =
        .ok (f.expand.body.bare, .ofMethod f.expand) :=
    RedirectContext.block_plain hr f.expand.body (Stmt.expandBlock_expand f.body)
      fun v hv => passes_of_direct hs hv (direct v hv)
  rw [redirect_eq, hs]
  simp only [Except.bind, redirectIn, ok_bind, ok_pure]
  exact ⟨_, walked, rfl⟩

-- The method `func (o *Order) F(xs []string) { (o.note) = "a"; for (o.Id) = range xs { } }` on an
-- entity whose other field is proxied: the record store manages the one, and the other is the key.
theorem redirect_plain_managed :
    let schema : Schema := ⟨[{ name := "Order", fields := [{ name := "Id", type := "int" },
      { name := "note", type := "string", excluded := true }, { name := "total", type := "int" }] }]⟩
    let o : Expr := .ident .nowhere "o"
    let text : Expr := .literal .nowhere (.string "a")
    let f (note key : Expr) : FuncDecl :=
      ⟨none, some ⟨"o", .pointer (.named "Order")⟩, "F", [], [⟨"xs", .slice .string⟩], [],
        .mk .nowhere [.assign .nowhere [note] .assign [text],
          .range .nowhere (some key) none false (.ident .nowhere "xs") (.mk .nowhere [])], .nowhere⟩
    let note : Expr := .select .nowhere o "note"
    let key : Expr := .select .nowhere o "Id"
    (f (.paren .nowhere note) (.paren .nowhere key)).redirect
      (Catalog.build schema .standard {}).value ⟨[]⟩ .standard = .ok (f note key) := by
  intro schema o text f note key
  let e : EntityFields := ⟨{ name := "Order", fields := [{ name := "Id", type := "int" },
    { name := "note", type := "string", excluded := true }, { name := "total", type := "int" }] },
    [⟨"Order", { name := "Id", type := "int" }, .direct⟩,
      ⟨"Order", { name := "note", type := "string", excluded := true }, .direct⟩,
      ⟨"Order", { name := "total", type := "int" }, .proxied (.primitive "int" "GetInt")⟩]⟩
  have catalog : (Catalog.build schema .standard {}).value = ⟨[e]⟩ := by decide +kernel
  rw [catalog]
  refine redirect_plain rfl rfl fun v hv entity info isField _ => ?_
  obtain ⟨_, _, _, field⟩ := isField
  rw [visits_catalog hv] at field
  obtain ⟨e', he, found⟩ := Option.bind_eq_some_iff.1 field
  obtain rfl := List.mem_singleton.1 (Catalog.mem_of_entity? he)
  have selected : v.member = "note" ∨ v.member = "Id" := by
    rcases List.mem_cons.1 hv with rfl | hv
    · exact .inl rfl
    · exact .inr (List.mem_singleton.1 hv ▸ rfl)
  have direct : ∀ info ∈ e.fields, info.name = "note" ∨ info.name = "Id" → info.access = .direct := by
    decide
  have named : info.name = v.member := by simpa using List.find?_some found
  exact direct info (List.mem_of_find?_eq_some found) (named ▸ selected)

end FuncDecl

end FieldAccess
