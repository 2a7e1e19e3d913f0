import FieldAccess.Proofs.SettledPlans

namespace FieldAccess

namespace Stmt

-- A statement that writes to a member may call a mutator after redirection.
def writesMember : Stmt → Bool
  | .assign _ targets _ _ => targets.any (·.unparen.member?.isSome)
  | .step _ target _ => target.unparen.member?.isSome
  | _ => false

-- The names that a statement binds in the block in which it stands.
def boundNames : Stmt → List String
  | .var _ names _ _ => names
  | .assign _ targets .define _ => targets.filterMap (·.ident?)
  | .range _ key value true _ _ => (key.toList ++ value.toList).filterMap (·.ident?)
  | _ => []

mutual

-- No name is hidden from a statement that reads it: neither by the body of a loop from a post
-- statement that may move to its end, nor by a `var` statement from its own later values.
def Unhidden : Stmt → Prop
  | .var _ xs _ values => ∀ x ∈ xs, x ∉ namesOfExprs values.tail
  | .block body => blockUnhidden body
  | .ifElse _ _ _ body orElse => blockUnhidden body ∧ optionUnhidden orElse
  | .forLoop _ _ _ post body =>
    (post.any (·.writesMember) → ∀ s ∈ body.statements, ∀ x ∈ s.boundNames, x ∉ namesOfOption post) ∧
      blockUnhidden body
  | .range _ _ _ _ _ body => blockUnhidden body
  | .switch _ _ _ cases => casesUnhidden cases
  | _ => True

def optionUnhidden : Option Stmt → Prop
  | none => True
  | some s => Unhidden s

def blockUnhidden : Block → Prop
  | .mk _ statements => listUnhidden statements

def listUnhidden : List Stmt → Prop
  | [] => True
  | s :: rest => Unhidden s ∧ listUnhidden rest

def casesUnhidden : List Case → Prop
  | [] => True
  | .mk _ _ body :: rest => listUnhidden body ∧ casesUnhidden rest

end

end Stmt

namespace TypeContext

variable {c : TypeContext} {names : List String}

theorem mem_targetBindings {targets : List Expr} {types : List (Option TypeExpr)} {b : LocalBinding}
    (h : b ∈ targetBindings targets types) : b.name ∈ targets.filterMap (·.ident?) := by
  obtain ⟨⟨e, type⟩, mem, same⟩ := List.mem_filterMap.1 h
  obtain ⟨x, hx, rfl⟩ := Option.map_eq_some_iff.1 same
  exact List.mem_filterMap.2 ⟨e, (List.of_mem_zip mem).1, hx⟩

theorem mem_varBindings {type : Option TypeExpr} {xs : List String} {values : List Expr}
    {b : LocalBinding} (h : b ∈ c.varBindings type xs values) : b.name ∈ xs := by
  induction xs generalizing c values with
  | nil => cases h
  | cons x xs ih =>
    rcases List.mem_cons.1 h with rfl | h
    · exact List.mem_cons_self ..
    · exact List.mem_cons_of_mem _ (ih h)

theorem mem_bindingsOf {s : Stmt} {b : LocalBinding} (h : b ∈ c.bindingsOf s) :
    b.name ∈ s.boundNames := by
  cases s with
  | var => exact mem_varBindings h
  | assign _ targets op values =>
    cases op with
    | define => exact mem_targetBindings h
    | assign | compound => cases h
  | range _ key value define iterable body =>
    cases define with
    | true =>
      rw [Stmt.boundNames, List.filterMap_append]
      exact List.mem_append.2 ((List.mem_append.1 h).imp mem_targetBindings mem_targetBindings)
    | false => cases h
  | _ => cases h

-- What binds other names leaves these as they are.
theorem agrees_declare {s : Stmt} (h : ∀ x ∈ s.boundNames, x = "_" ∨ x ∉ names) :
    c.Agrees names (c.declare s) :=
  agrees_bindAll c fun _ hb => h _ (mem_bindingsOf hb)

theorem agrees_declareAll {ss : List Stmt} (h : ∀ s ∈ ss, ∀ x ∈ s.boundNames, x ∉ names) :
    c.Agrees names (c.declareAll ss) := by
  induction ss generalizing c with
  | nil => exact .refl names c
  | cons s ss ih =>
    exact (agrees_declare fun x hx => .inr (h s (by simp) x hx)).trans
      (ih fun s hs => h s (by simp [hs]))

end TypeContext

namespace RedirectContext

open TypeContext

variable {r : RedirectContext} {c : TypeContext} {span : Span}

-- Redirection leaves what stands in a header, or in none, as it is.
structure HeaderStays (r : RedirectContext) (c : TypeContext) (s : Option Stmt) : Prop where
  expanded : Stmt.expandOption s = s
  header : ∀ place temps, r.header c place s temps = .ok ({ header := s }, temps)

theorem StmtSettled.headerStays {s : Stmt} (h : r.StmtSettled c s) : r.HeaderStays c (some s) :=
  ⟨congrArg some h.expanded, h.header⟩

theorem headerStays_none : r.HeaderStays c none :=
  ⟨rfl, fun _ _ => rfl⟩

-- Redirection leaves an else branch, or none, as it is.
structure BranchStays (r : RedirectContext) (c : TypeContext) (s : Option Stmt) : Prop where
  expanded : Stmt.expandOption s = s
  branch : ∀ temps, r.branch c s temps = .ok (s, temps)

theorem StmtSettled.branchStays {s : Stmt} (h : r.StmtSettled c s) : r.BranchStays c (some s) := by
  refine ⟨congrArg some h.expanded, fun temps => ?_⟩
  cases s
  case ifElse =>
    simp only [RedirectContext.branch, Redirecting.ok_bind, Redirecting.ok_pure]
    exact ⟨_, _, h.stmt true temps, rfl, rfl⟩
  case block =>
    simp only [RedirectContext.branch, Redirecting.ok_bind, Redirecting.ok_pure]
    exact ⟨_, _, h.stmt true temps, rfl, rfl⟩
  all_goals rfl

theorem branchStays_none : r.BranchStays c none :=
  ⟨rfl, fun _ => rfl⟩

-- Cases of a `switch` that redirection leaves as they are.
def CasesSettle (r : RedirectContext) (c : TypeContext) : List Case → Prop
  | [] => True
  | .mk _ values body :: rest =>
    (∀ e ∈ values, r.Settled c e) ∧ r.Settles c body ∧ r.CasesSettle c rest

theorem CasesSettle.caseList {cs : List Case} (h : r.CasesSettle c cs) (temps : Temporaries) :
    r.caseList c cs temps = .ok (cs, temps) := by
  induction cs with
  | nil => rfl
  | cons first rest ih =>
    obtain ⟨at_, values, body⟩ := first
    obtain ⟨hv, hb, hrest⟩ := h
    obtain ⟨vs, found, same⟩ := Settled.values hv
    simp only [RedirectContext.caseList, Redirecting.ok_bind, Redirecting.ok_lift,
      Redirecting.ok_pure]
    exact ⟨vs, _, ⟨found, rfl⟩, body, _, hb.stmts temps, rest, _, ih hrest, by rw [same], rfl⟩

theorem CasesSettle.expandCases {cs : List Case} (h : r.CasesSettle c cs) :
    Stmt.expandCases cs = cs := by
  induction cs with
  | nil => rfl
  | cons first rest ih =>
    obtain ⟨at_, values, body⟩ := first
    obtain ⟨_, hb, hrest⟩ := h
    rw [Stmt.expandCases, hb.expandList, ih hrest]

theorem Settles.block {ss : List Stmt} (h : r.Settles c ss) (temps : Temporaries) :
    r.block c (.mk span ss) temps = .ok (.mk span ss, temps) := by
  simp only [RedirectContext.block, Redirecting.ok_bind, Redirecting.ok_pure]
  exact ⟨ss, _, h.stmts temps, rfl, rfl⟩

namespace StmtSettled

variable {at_ : Span} {ss : List Stmt} {init post orElse : Option Stmt} {e : Expr}
  {cond key value : Option Expr}

theorem empty : r.StmtSettled c (.empty span) :=
  ⟨rfl, fun _ _ => rfl, fun _ _ => rfl⟩

theorem breakLoop : r.StmtSettled c (.breakLoop span) :=
  ⟨rfl, fun _ _ => rfl, fun _ _ => rfl⟩

theorem continueLoop : r.StmtSettled c (.continueLoop span) :=
  ⟨rfl, fun _ _ => rfl, fun _ _ => rfl⟩

theorem var {xs : List String} {type : Option TypeExpr} {values : List Expr}
    (h : ∀ e ∈ values, r.Settled c e) : r.StmtSettled c (.var span xs type values) := by
  obtain ⟨vs, found, same⟩ := Settled.values h
  refine ⟨rfl, fun _ temps => ?_, fun _ _ => rfl⟩
  simp only [RedirectContext.stmt, Redirecting.ok_bind, Redirecting.ok_lift, Redirecting.ok_pure]
  exact ⟨vs, _, ⟨found, rfl⟩, by rw [same], rfl⟩

theorem ret {values : List Expr} (h : ∀ e ∈ values, r.Settled c e) :
    r.StmtSettled c (.ret span values) := by
  obtain ⟨vs, found, same⟩ := Settled.values h
  refine ⟨rfl, fun _ temps => ?_, fun _ _ => rfl⟩
  simp only [RedirectContext.stmt, Redirecting.ok_bind, Redirecting.ok_lift, Redirecting.ok_pure]
  exact ⟨vs, _, ⟨found, rfl⟩, by rw [same], rfl⟩

theorem block (h : r.Settles c ss) : r.StmtSettled c (.block (.mk span ss)) := by
  refine ⟨by rw [Stmt.expand, Stmt.expandBlock, h.expandList], fun _ temps => ?_, fun _ _ => rfl⟩
  simp only [RedirectContext.stmt, Redirecting.ok_bind, Redirecting.ok_pure]
  exact ⟨_, _, h.block temps, rfl, rfl⟩

theorem ifElse (hinit : r.HeaderStays c init)
    (hcond : r.Settled (TypeOracle.declareHeader c init) e)
    (hbody : r.Settles (TypeOracle.declareHeader c init) ss)
    (hbranch : r.BranchStays (TypeOracle.declareHeader c init) orElse) :
    r.StmtSettled c (.ifElse span init e (.mk at_ ss) orElse) := by
  refine ⟨?_, fun _ temps => ?_, fun _ _ => rfl⟩
  · rw [Stmt.expand, hinit.expanded, Stmt.expandBlock, hbody.expandList, hbranch.expanded]
  · simp only [RedirectContext.stmt, Redirecting.ok_bind, Redirecting.ok_lift, Redirecting.ok_pure]
    exact ⟨_, _, hinit.header _ temps, _, _, ⟨hcond, rfl⟩, _, _, hbody.block temps, _, _,
      hbranch.branch temps, rfl, rfl⟩

theorem value?_settled (h : ∀ e ∈ cond, r.Settled c e) : r.value? c cond = .ok cond := by
  cases cond with
  | none => rfl
  | some e =>
    rw [value?, show r.value c e = _ from h e rfl]
    rfl

theorem forLoop (hinit : r.HeaderStays c init)
    (hcond : ∀ e ∈ cond, r.Settled (TypeOracle.declareHeader c init) e)
    (hpost : r.HeaderStays (TypeOracle.declareHeader c init) post)
    (hbody : r.Settles (TypeOracle.declareHeader c init) ss) :
    r.StmtSettled c (.forLoop span init cond post (.mk at_ ss)) := by
  refine ⟨?_, fun _ temps => ?_, fun _ _ => rfl⟩
  · rw [Stmt.expand, hinit.expanded, hpost.expanded, Stmt.expandBlock, hbody.expandList]
  · simp only [RedirectContext.stmt, Redirecting.ok_bind, Redirecting.ok_lift]
    refine ⟨_, _, hinit.header _ temps, _, _, ⟨value?_settled hcond, rfl⟩, _, _,
      hpost.header _ temps, ?_⟩
    simp only [List.isEmpty_nil, Bool.not_true, Bool.false_and, Bool.false_eq_true, if_false,
      Redirecting.ok_bind, Redirecting.ok_pure]
    exact ⟨_, _, hbody.block temps, by simp [Block.statements, Block.span], rfl⟩

theorem switch {tag : Option Expr} {cases : List Case} (hinit : r.HeaderStays c init)
    (htag : ∀ e ∈ tag, r.Settled (TypeOracle.declareHeader c init) e)
    (hcases : r.CasesSettle (TypeOracle.declareHeader c init) cases) :
    r.StmtSettled c (.switch span init tag cases) := by
  refine ⟨?_, fun _ temps => ?_, fun _ _ => rfl⟩
  · rw [Stmt.expand, hinit.expanded, hcases.expandCases]
  · simp only [RedirectContext.stmt, Redirecting.ok_bind, Redirecting.ok_lift, Redirecting.ok_pure]
    exact ⟨_, _, hinit.header _ temps, _, _, ⟨value?_settled htag, rfl⟩, _, _,
      hcases.caseList temps, rfl, rfl⟩

theorem target?_stays (h : ∀ e ∈ key, r.Stays c e) :
    ∃ t : Option Target, r.targets c key.toList = .ok t.toList ∧ t.any (·.isField) = false ∧
      (key.bind fun e => t.map (·.place e)) = key := by
  cases key with
  | none => exact ⟨none, rfl, rfl, rfl⟩
  | some e =>
    obtain ⟨t, ht, plain, same⟩ := h e rfl
    refine ⟨some t, ?_, plain, congrArg some same⟩
    rw [targets, ok_mapM]
    exact .cons ht .nil

theorem rangeHeader_stays {type : Option StaticType} (hkey : ∀ e ∈ key, r.Stays c e)
    (hvalue : ∀ e ∈ value, r.Stays c e) (temps : Temporaries) :
    r.rangeHeader c span key value type temps = .ok (⟨key, value, false, []⟩, temps) := by
  obtain ⟨k, hk, noKey, sameKey⟩ := target?_stays hkey
  obtain ⟨v, hv, noValue, sameValue⟩ := target?_stays hvalue
  simp only [rangeHeader, Redirecting.ok_bind, ok_mapM_target]
  refine ⟨k, temps, ⟨hk, rfl⟩, v, temps, ⟨hv, rfl⟩, ?_⟩
  simp only [noKey, noValue, Bool.or_self, Bool.false_eq_true, if_false, sameKey, sameValue]
  rfl

theorem range {define : Bool} {inner : TypeContext} (hiter : r.Settled c e)
    (hi : inner = c.declare (.range span key value define e (.mk at_ ss)))
    (htargets : define = false → (∀ e ∈ key, r.Stays inner e) ∧ ∀ e ∈ value, r.Stays inner e)
    (hbody : r.Settles inner ss) :
    r.StmtSettled c (.range span key value define e (.mk at_ ss)) := by
  subst hi
  refine ⟨?_, fun _ temps => ?_, fun _ _ => rfl⟩
  · rw [Stmt.expand, Stmt.expandBlock, hbody.expandList]
  · simp only [RedirectContext.stmt, Redirecting.ok_bind, Redirecting.ok_lift]
    refine ⟨_, _, ⟨hiter, rfl⟩, ?_⟩
    cases define with
    | true =>
      simp only [if_true, Redirecting.ok_bind, Redirecting.ok_pure]
      exact ⟨_, _, ⟨rfl, rfl⟩, _, _, hbody.block temps, rfl, rfl⟩
    | false =>
      obtain ⟨hkey, hvalue⟩ := htargets rfl
      simp only [Bool.false_eq_true, if_false, Redirecting.ok_bind, Redirecting.ok_pure]
      exact ⟨_, _, rangeHeader_stays hkey hvalue temps, _, _, hbody.block temps, rfl, rfl⟩

end StmtSettled

-- Statements that declare nothing.
theorem settles_inert {ss : List Stmt} (h : ∀ s ∈ ss, r.StmtSettled c s ∧ c.declare s = c) :
    r.Settles c ss ∧ c.declareAll ss = c := by
  induction ss with
  | nil => exact ⟨trivial, rfl⟩
  | cons s ss ih =>
    obtain ⟨settled, same⟩ := h s (by simp)
    have rest := ih fun s hs => h s (by simp [hs])
    exact ⟨⟨settled, same.symm ▸ rest.1⟩, by rw [declareAll, List.foldl_cons, same]; exact rest.2⟩

theorem settles_calls {ss : List Stmt} (h : ∀ s ∈ ss, r.StmtSettled c s ∧ ∃ e, s = .expr e) :
    r.Settles c ss ∧ c.declareAll ss = c :=
  settles_inert fun s hs => (h s hs).imp_right fun ⟨_, same⟩ => same ▸ rfl

namespace PlanSettled

variable {names : List String} {bs : List LocalBinding} {p : AssignPlan}

theorem statements (h : r.PlanSettled c names bs p) :
    r.Settles c p.statements ∧
      c.declareAll p.statements = (c.declareAll p.bindings).bindAll bs := by
  have plain : r.Settles (c.declareAll p.bindings) p.plain.toList ∧
      (c.declareAll p.bindings).declareAll p.plain.toList = (c.declareAll p.bindings).bindAll bs := by
    rw [← h.declares]
    cases hp : p.plain with
    | none => exact ⟨trivial, rfl⟩
    | some s => exact ⟨⟨h.plain s hp, trivial⟩, rfl⟩
  simp only [AssignPlan.statements, settles_append, declareAll_append, plain.2]
  by_cases none : p.mutators = []
  · rw [none]
    exact ⟨⟨⟨h.bindings, plain.1⟩, trivial⟩, rfl⟩
  · obtain ⟨settles, same⟩ := settles_calls h.mutators
    rw [h.alone none] at plain ⊢
    exact ⟨⟨⟨h.bindings, plain.1⟩, settles⟩, same⟩

-- What moves out of a header.
theorem moved (h : r.PlanSettled c names bs p) :
    r.Settles c (p.bindings ++ p.mutators) ∧
      c.declareAll (p.bindings ++ p.mutators) = c.declareAll p.bindings := by
  obtain ⟨settles, same⟩ := settles_calls h.mutators
  rw [settles_append, declareAll_append]
  exact ⟨⟨h.bindings, settles⟩, same⟩

end PlanSettled

-- What an initializer becomes: statements in front and a header that binds what it bound.
structure FrontSettled (r : RedirectContext) (c : TypeContext) (names : List String)
    (bs : List LocalBinding) (m : Relocated) : Prop where
  before : r.Settles c m.before
  fresh : c.Agrees names (c.declareAll m.before)
  header : r.HeaderStays (c.declareAll m.before) m.header
  declares : m.header.elim [] (c.declareAll m.before).bindingsOf = bs

variable (span) in
theorem headerStays_plain {p : AssignPlan} (h : ∀ s ∈ p.plain, r.StmtSettled c s) :
    r.HeaderStays c p.plain ∧ r.HeaderStays c (some (p.plain.getD (.empty span))) := by
  cases hp : p.plain with
  | none => exact ⟨headerStays_none, StmtSettled.empty.headerStays⟩
  | some s => exact ⟨(h s hp).headerStays, (h s hp).headerStays⟩

theorem relocate_front {r' : RedirectContext} {names : List String} {bs : List LocalBinding}
    {p : AssignPlan} {place : Header} {m : Relocated} (h : r'.relocate place span p = .ok m)
    (init : place ≠ .forPost) (hb : p.mutators = [] → p.bindings = [])
    (settled : r.PlanSettled c names bs p) : r.FrontSettled c names bs m := by
  have ⟨plain, kept⟩ := headerStays_plain span settled.plain
  simp only [relocate] at h
  split at h
  case isTrue unwritten =>
    cases ok_pure.1 h
    have bindings := hb (by simpa [AssignPlan.writesFields] using unwritten)
    have declares := settled.declares
    rw [bindings] at plain declares
    exact ⟨trivial, .refl names c, plain, declares⟩
  case isFalse written =>
    have none : bs = [] := settled.alone fun none => written (by simp [AssignPlan.writesFields, none])
    obtain ⟨settles, same⟩ := settled.moved
    have front : r.FrontSettled c names bs
        { header := some (p.plain.getD (.empty span)), before := p.bindings ++ p.mutators } := by
      refine ⟨settles, ?_, ?_, ?_⟩ <;> simp only [same]
      · exact settled.fresh
      · exact kept
      · rw [← settled.declares]
        cases p.plain <;> rfl
    cases place with
    | elseIfInit => simp [fail, ok_throw] at h
    | forPost => exact absurd rfl init
    | ifInit | forInit | switchInit => exact ok_pure.1 h ▸ front

-- Only a member can be a field.
theorem member_of_field {receiver : Expr} {info : FieldInfo} :
    (e : Expr) → r.target c e = .ok (.field receiver info) → e.unparen.member?.isSome
  | .ident _ _, h => by
    rw [target] at h
    split at h <;> cases ok_pure.1 h
  | .paren _ inner, h => member_of_field inner h
  | .select _ _ _, _ => rfl
  | .literal _ _, h | .typeOperand _ _, h | .call _ _ _ _, h | .index _ _ _, h
  | .binary _ _ _ _, h | .unary _ _ _, h | .composite _ _ _, h => by
    rw [target_of_other rfl] at h
    obtain ⟨_, _, h⟩ := ok_bind.1 h
    cases ok_pure.1 h

section

variable {targets values : List Expr} {temps temps' : Temporaries} {p : AssignPlan}

theorem planAssign_member (h : r.planAssign c span targets values temps = .ok (p, temps'))
    (writes : p.mutators ≠ []) : targets.any (·.unparen.member?.isSome) := by
  obtain ⟨ts, vs, ht, _, planned⟩ := planned_of_ok h
  have field : ts.any (·.isField) = true := by
    cases planned with
    | kept => exact absurd rfl writes
    | single => rfl
    | split field => exact field
  obtain ⟨t, hm, field⟩ := List.any_eq_true.1 field
  rw [RedirectContext.targets, ok_mapM] at ht
  obtain ⟨e, he, resolved⟩ := exists_of_forall₂ ht.flip hm
  cases t with
  | field => exact List.any_eq_true.2 ⟨e, he, member_of_field e resolved⟩
  | blank | plain => cases field

theorem planCompound_member {target v : Expr} {op : BinaryOp} {form : Expr → Expr → Stmt}
    (h : r.planCompound c span target op v form temps = .ok (p, temps'))
    (writes : p.mutators ≠ []) : target.unparen.member?.isSome := by
  obtain ⟨t, _, ht, _, planned⟩ := plannedCompound_of_ok h
  cases planned with
  | field => exact member_of_field target ht
  | kept => exact absurd rfl writes

theorem plan_member {op : AssignOp} (h : r.plan c span targets op values temps = .ok (p, temps'))
    (expanded : (Stmt.assign span targets op values).expand = .assign span targets op values)
    (writes : p.mutators ≠ []) : targets.any (·.unparen.member?.isSome) := by
  cases op with
  | assign => exact planAssign_member h writes
  | define =>
    simp only [plan, Redirecting.ok_bind, Redirecting.ok_lift, Redirecting.ok_pure] at h
    obtain ⟨_, _, _, rfl, _⟩ := h
    exact absurd rfl writes
  | compound op =>
    simp only [plan, not_repeatable expanded, Bool.false_eq_true, if_false] at h
    split at h
    · simpa using planCompound_member h writes
    · obtain ⟨rfl, _⟩ := Redirecting.ok_pure.1 h
      exact absurd rfl writes

theorem planStep_member {target : Expr} {increment : Bool}
    (h : r.planStep c span target increment temps = .ok (p, temps'))
    (expanded : (Stmt.step span target increment).expand = .step span target increment)
    (writes : p.mutators ≠ []) : target.unparen.member?.isSome := by
  simp only [planStep, calls_of_expanded expanded, Bool.false_eq_true, if_false] at h
  exact planCompound_member h writes

end

-- What a post statement becomes: a header, and statements at the end of the loop's body.
structure PostSettled (r : RedirectContext) (c c' : TypeContext) (s : Option Stmt) (m : Relocated) :
    Prop where
  header : r.HeaderStays c' m.header
  after : ∀ c', c.Agrees (namesOfOption s) c' → r.Settles c' m.after
  moves : m.after ≠ [] → s.any (·.writesMember)

theorem relocate_post {r' : RedirectContext} {c' : TypeContext} {names : List String}
    {bs : List LocalBinding} {p : AssignPlan} {s : Stmt} {m : Relocated}
    (h : r'.relocate .forPost span p = .ok m) (agrees : c.Agrees s.names c')
    (settled : ∀ c', c.Agrees s.names c' → r.PlanSettled c' names bs p)
    (hb : p.mutators = [] → p.bindings = []) (member : p.mutators ≠ [] → s.writesMember) :
    r.PostSettled c c' (some s) m := by
  simp only [relocate] at h
  split at h
  case isTrue unwritten =>
    cases ok_pure.1 h
    have plain := (settled c' agrees).plain
    rw [hb (by simpa [AssignPlan.writesFields] using unwritten)] at plain
    exact ⟨(headerStays_plain span plain).1, fun _ _ => trivial, absurd rfl⟩
  case isFalse written =>
    have moves : p.mutators ≠ [] := fun none => written (by simp [AssignPlan.writesFields, none])
    split at h
    case isTrue =>
      cases ok_pure.1 h
      exact ⟨StmtSettled.empty.headerStays, fun c' agrees => (settled c' agrees).statements.1,
        fun _ => member moves⟩
    case isFalse unread =>
      cases ok_pure.1 h
      obtain ⟨_, kept⟩ := headerStays_plain span
        ((settled c' agrees).inPlace (by simpa using unread))
      exact ⟨kept, fun c' agrees => (settled c' agrees).moved.1, fun _ => member moves⟩

section

variable {r' : RedirectContext} {c' : TypeContext} {names : List String} {temps temps' : Temporaries}
  {s : Option Stmt} {m : Relocated} {place : Header} (within : r'.Within r c.catalog)
  (sure : c.Unmistakable) (sub : namesOfOption s ⊆ names) (taken : names ⊆ temps.taken)
  (expanded : Stmt.expandOption s = s)

include within sure sub taken expanded in
theorem header_front (h : r.header c place s temps = .ok (m, temps')) (init : place ≠ .forPost)
    (agrees : c.Agrees names c') :
    r'.FrontSettled c' names (s.elim [] c.bindingsOf) m ∧ temps.taken ⊆ temps'.taken := by
  cases s with
  | none =>
    obtain ⟨rfl, rfl⟩ := Redirecting.ok_pure.1 h
    exact ⟨⟨trivial, .refl names c', headerStays_none, rfl⟩, List.Subset.refl _⟩
  | some s =>
    replace expanded : s.expand = s := Option.some.inj expanded
    cases s
    case assign span targets op values =>
      simp only [RedirectContext.header, Redirecting.ok_bind, Redirecting.ok_lift] at h
      obtain ⟨p, _, hp, hm, rfl⟩ := h
      obtain ⟨settled, mono⟩ := plan_settled within sure (List.Subset.refl _) taken agrees hp
        expanded sub
      exact ⟨relocate_front hm init (plan_bindings hp) settled, mono⟩
    case step span target increment =>
      simp only [RedirectContext.header, Redirecting.ok_bind, Redirecting.ok_lift] at h
      obtain ⟨p, _, hp, hm, rfl⟩ := h
      obtain ⟨settled, mono⟩ := planStep_settled within sure (List.Subset.refl _) taken agrees hp
        expanded sub
      exact ⟨relocate_front hm init (planStep_bindings hp) settled, mono⟩
    case expr e =>
      simp only [RedirectContext.header, Redirecting.ok_bind, Redirecting.ok_lift,
        Redirecting.ok_pure] at h
      obtain ⟨t, _, ⟨ht, rfl⟩, rfl, rfl⟩ := h
      have ht := value_becomes within sure e t ht
      have stays := (StmtSettled.expr (ht.settled.transfer agrees
        (List.Subset.trans ht.names sub))).headerStays
      exact ⟨⟨trivial, .refl names c', stays, rfl⟩, List.Subset.refl _⟩
    all_goals
      obtain ⟨rfl, rfl⟩ := Redirecting.ok_pure.1 h
      exact ⟨⟨trivial, .refl names c', ⟨congrArg some expanded, fun _ _ => rfl⟩,
        agrees.bindingsOf_eq sub⟩, List.Subset.refl _⟩

include within sure sub taken expanded in
theorem header_post (h : r.header c .forPost s temps = .ok (m, temps'))
    (agrees : c.Agrees (namesOfOption s) c') :
    r'.PostSettled c c' s m ∧ temps.taken ⊆ temps'.taken := by
  cases s with
  | none =>
    obtain ⟨rfl, rfl⟩ := Redirecting.ok_pure.1 h
    exact ⟨⟨headerStays_none, fun _ _ => trivial, absurd rfl⟩, List.Subset.refl _⟩
  | some s =>
    replace expanded : s.expand = s := Option.some.inj expanded
    cases s
    case assign span targets op values =>
      simp only [RedirectContext.header, Redirecting.ok_bind, Redirecting.ok_lift] at h
      obtain ⟨p, _, hp, hm, rfl⟩ := h
      have settled (c' : TypeContext) (agrees : c.Agrees _ c') :=
        plan_settled within sure sub taken agrees hp expanded (List.Subset.refl _)
      exact ⟨relocate_post hm agrees (fun c' agrees => (settled c' agrees).1) (plan_bindings hp)
        (plan_member hp expanded), (settled c' agrees).2⟩
    case step span target increment =>
      simp only [RedirectContext.header, Redirecting.ok_bind, Redirecting.ok_lift] at h
      obtain ⟨p, _, hp, hm, rfl⟩ := h
      have settled (c' : TypeContext) (agrees : c.Agrees _ c') :=
        planStep_settled within sure sub taken agrees hp expanded (List.Subset.refl _)
      exact ⟨relocate_post hm agrees (fun c' agrees => (settled c' agrees).1)
        (planStep_bindings hp) (planStep_member hp expanded), (settled c' agrees).2⟩
    case expr e =>
      simp only [RedirectContext.header, Redirecting.ok_bind, Redirecting.ok_lift,
        Redirecting.ok_pure] at h
      obtain ⟨t, _, ⟨ht, rfl⟩, rfl, rfl⟩ := h
      have ht := value_becomes within sure e t ht
      have stays := (StmtSettled.expr (ht.settled.transfer agrees ht.names)).headerStays
      exact ⟨⟨stays, fun _ _ => trivial, absurd rfl⟩, List.Subset.refl _⟩
    all_goals
      obtain ⟨rfl, rfl⟩ := Redirecting.ok_pure.1 h
      exact ⟨⟨⟨congrArg some expanded, fun _ _ => rfl⟩, fun _ _ => trivial, absurd rfl⟩,
        List.Subset.refl _⟩

end

theorem namesOfExprs_tail (es : List Expr) : namesOfExprs es.tail ⊆ namesOfExprs es := by
  cases es with
  | nil => exact List.Subset.refl _
  | cons => exact List.subset_append_right ..

-- The variables of a `var` statement have the types that they had.
theorem varBindings_becomes (type : Option TypeExpr) (xs : List String) {values : List Expr}
    {vs : List TypedExpr} {d d' : TypeContext} (hvs : List.Forall₂ (r.Becomes c) values vs)
    (agrees : c.Agrees (namesOfExprs values) d) (agrees' : c.Agrees (namesOfExprs values) d')
    (unhidden : ∀ x ∈ xs, x ∉ namesOfExprs values.tail) :
    d'.varBindings type xs (vs.map (·.expr)) = d.varBindings type xs values := by
  induction xs generalizing values vs d d' with
  | nil => rfl
  | cons x xs ih =>
    have first : (vs.map (·.expr)).head?.bind d'.variableType? = values.head?.bind d.variableType? := by
      cases hvs with
      | nil => rfl
      | @cons v _ rest _ hv _ =>
        have sub : v.names ⊆ namesOfExprs (v :: rest) := List.subset_append_left ..
        exact (agrees'.variableType?_eq (List.Subset.trans hv.names sub)).trans
          (hv.variableType?_eq.trans (agrees.variableType?_eq sub).symm)
    have tail : List.Forall₂ (r.Becomes c) values.tail vs.tail := by
      cases hvs with
      | nil => exact .nil
      | cons _ rest => exact rest
    have sub := namesOfExprs_tail values
    have hidden (d : TypeContext) (type : Option TypeExpr) :
        d.Agrees (namesOfExprs values.tail) (d.bind ⟨x, type⟩) :=
      agrees_bind d (.inr (unhidden x (by simp)))
    simp only [varBindings, first, ← List.map_tail]
    rw [ih tail ((agrees.mono sub).trans (hidden d _)) ((agrees'.mono sub).trans (hidden d' _))
      fun y hy mem => unhidden y (by simp [hy]) (namesOfExprs_tail _ mem)]

-- The variables of a loop over elements: either they are new, and what they are assigned to is
-- written at the start of each round, or they stay.
structure LoopSettled (r : RedirectContext) (c c' : TypeContext) (own names : List String)
    (head : RangeHeader) : Prop where
  fresh : head.define = true →
    ∀ x ∈ (head.key.toList ++ head.value.toList).filterMap (·.ident?), x = "_" ∨ x ∉ names
  stays : head.define = false → (∀ e ∈ head.key, r.Stays c' e) ∧ ∀ e ∈ head.value, r.Stays c' e
  prelude : ∀ d, c.Agrees own d → r.Settles d head.prelude ∧ d.declareAll head.prelude = d

section

variable {r' : RedirectContext} {c' : TypeContext} {own names : List String}
  {temps temps' : Temporaries}

theorem rangeTarget_settled (hr : r'.scope.catalog = c.catalog) {type : Option TypeExpr}
    {t : Option Target} {e : Option Expr} {prelude : List Stmt} (taken : names ⊆ temps.taken)
    (h : r.rangeTarget span type t temps = .ok ((e, prelude), temps'))
    (ht : ∀ t' ∈ t, r'.TargetSettled c t' ∧ t'.names ⊆ own) :
    temps.taken ⊆ temps'.taken ∧ (∀ x ∈ e.toList.filterMap (·.ident?), x = "_" ∨ x ∉ names) ∧
      ∀ d, c.Agrees own d → ∀ s ∈ prelude, r'.StmtSettled d s ∧ d.declare s = d := by
  rcases t with _ | t
  · obtain ⟨same, rfl⟩ := Redirecting.ok_pure.1 h
    cases same
    exact ⟨List.Subset.refl _, by simp, fun _ _ => nofun⟩
  obtain ⟨settled, sub⟩ := ht t rfl
  cases t with
  | blank =>
    obtain ⟨same, rfl⟩ := Redirecting.ok_pure.1 h
    cases same
    exact ⟨List.Subset.refl _, by simp [Expr.ident?], fun _ _ => nofun⟩
  | plain place =>
    simp only [rangeTarget, Redirecting.ok_bind, Redirecting.ok_modifyGet, Redirecting.ok_pure,
      Prod.mk.injEq] at h
    obtain ⟨name, _, drawn, ⟨rfl, rfl⟩, rfl⟩ := h
    have draws := Draws.fresh_name place.nameHint
    have mono := draws.mono temps
    have fresh := draws.fresh temps
    rw [drawn] at mono fresh
    refine ⟨mono, ?_, fun d agrees s hs => ?_⟩
    · simpa [Expr.ident?] using .inr fun mem => (fresh name (by simp)).1 (taken mem)
    · obtain rfl := List.mem_singleton.1 hs
      have stays := PlaceSettled.stays (settled.transfer agrees sub)
      exact ⟨.assign (by simpa using stays) (by simpa using .ident name), rfl⟩
  | field receiver info =>
    simp only [rangeTarget, Redirecting.ok_bind, Redirecting.ok_lift, Redirecting.ok_modifyGet,
      Redirecting.ok_pure, Prod.mk.injEq] at h
    obtain ⟨name, _, drawn, _, _, ⟨_, rfl⟩, ⟨rfl, rfl⟩, rfl⟩ := h
    have draws := Draws.fresh_name info.name
    have mono := draws.mono temps
    have fresh := draws.fresh temps
    rw [drawn] at mono fresh
    refine ⟨mono, ?_, fun d agrees s hs => ?_⟩
    · simpa [Expr.ident?] using .inr fun mem => (fresh name (by simp)).1 (taken mem)
    · obtain rfl := List.mem_singleton.1 hs
      exact ⟨write_settled (hr.trans agrees.catalog.symm) r.settings (settled.transfer agrees sub)
        (.ident name), rfl⟩

theorem target?_becomes (within : r'.Within r c.catalog) (sure : c.Unmistakable)
    (agrees : c.Agrees own c') {e : Option Expr} {t : Option Target}
    (h : r.targets c e.toList = .ok t.toList) (sub : namesOfExprs e.toList ⊆ own) :
    (∀ t' ∈ t, r'.TargetSettled c t' ∧ t'.names ⊆ own) ∧
      (t.any (·.isField) = false → ∀ e' ∈ e.bind fun e => t.map (·.place e), r'.Stays c' e') := by
  rw [targets, ok_mapM] at h
  cases e with
  | none => cases t with
    | none => exact ⟨by simp, by simp⟩
    | some t => cases h
  | some e => cases t with
    | none => cases h
    | some t =>
      cases h with
      | cons resolved _ =>
        have becomes := target_becomes within sure e t resolved
        have sub : e.names ⊆ own := by simpa [namesOfExprs] using sub
        refine ⟨?_, fun plain => ?_⟩
        · rintro _ ⟨⟩
          exact ⟨becomes.settled, List.Subset.trans becomes.names sub⟩
        · rintro _ ⟨⟩
          obtain ⟨stays, names, _⟩ := becomes.stays plain
          exact stays.transfer agrees (List.Subset.trans names sub)

theorem rangeHeader_settled (within : r'.Within r c.catalog) (sure : c.Unmistakable)
    (taken : names ⊆ temps.taken) (agrees : c.Agrees own c') {key value : Option Expr}
    {type : Option StaticType} {head : RangeHeader}
    (h : r.rangeHeader c span key value type temps = .ok (head, temps'))
    (sub : namesOfExprs key.toList ++ namesOfExprs value.toList ⊆ own) :
    r'.LoopSettled c c' own names head ∧ temps.taken ⊆ temps'.taken := by
  obtain ⟨subKey, subValue⟩ := List.append_subset.1 sub
  simp only [rangeHeader, Redirecting.ok_bind, ok_mapM_target] at h
  obtain ⟨k, _, ⟨hk, rfl⟩, v, _, ⟨hv, rfl⟩, h⟩ := h
  obtain ⟨key, keyStays⟩ := target?_becomes within sure agrees hk subKey
  obtain ⟨value, valueStays⟩ := target?_becomes within sure agrees hv subValue
  split at h
  case isTrue =>
    simp only [Redirecting.ok_bind, Redirecting.ok_pure] at h
    obtain ⟨⟨newKey, first⟩, _, hfirst, ⟨newValue, second⟩, _, hsecond, rfl, rfl⟩ := h
    obtain ⟨mono, freshKey, first⟩ := rangeTarget_settled within.inner taken hfirst key
    obtain ⟨mono', freshValue, second⟩ := rangeTarget_settled within.inner
      (List.Subset.trans taken mono) hsecond value
    refine ⟨⟨fun _ x hx => ?_, by simp, fun d agrees => settles_inert fun s hs => ?_⟩,
      List.Subset.trans mono mono'⟩
    · rw [List.filterMap_append] at hx
      exact (List.mem_append.1 hx).elim (freshKey x) (freshValue x)
    · exact (List.mem_append.1 hs).elim (first d agrees s) (second d agrees s)
  case isFalse noField =>
    obtain ⟨rfl, rfl⟩ := Redirecting.ok_pure.1 h
    obtain ⟨noKey, noValue⟩ := Bool.or_eq_false_iff.1 (Bool.not_eq_true _ ▸ noField)
    exact ⟨⟨by simp, fun _ => ⟨keyStays noKey, valueStays noValue⟩, fun d _ => ⟨trivial, rfl⟩⟩,
      List.Subset.refl _⟩

end

-- A point of a method, in a first pass and in a second one that has more names in scope.
structure Meets (r r' : RedirectContext) (names : List String) (c c' : TypeContext)
    (temps : Temporaries) : Prop where
  within : r'.Within r c.catalog
  sure : c.Unmistakable
  agrees : c.Agrees names c'
  taken : names ⊆ temps.taken

-- What statements become is settled, and leaves the second pass at the point of the first.
structure Walked (r : RedirectContext) (names : List String) (c c' : TypeContext) (out : List Stmt)
    (temps temps' : Temporaries) : Prop where
  settles : r.Settles c' out
  agrees : c.Agrees names (c'.declareAll out)
  mono : temps.taken ⊆ temps'.taken

section

variable {r' : RedirectContext} {c' : TypeContext} {names : List String} {temps temps' : Temporaries}

theorem Meets.bindAll (h : r.Meets r' names c c' temps) {d : TypeContext} {bs : List LocalBinding}
    (agrees : (c.bindAll bs).Agrees names d) (mono : temps.taken ⊆ temps'.taken) :
    r.Meets r' names (c.bindAll bs) d temps' where
  within := by
    rw [bindAll_catalog]
    exact h.within
  sure := (agrees_bindAll c (by simp) : Agrees [] c (c.bindAll bs)).unmistakable h.sure
  agrees := agrees
  taken := List.Subset.trans h.taken mono

-- Inside a construct with an initializer.
theorem Meets.inner {init : Option Stmt} {place : Header} {m : Relocated}
    (h : r.Meets r' names c c' temps) (hinit : r.header c place init temps = .ok (m, temps'))
    (first : place ≠ .forPost) (expanded : Stmt.expandOption init = init)
    (sub : namesOfOption init ⊆ names) :
    r'.Settles c' m.before ∧ c.Agrees names (c'.declareAll m.before) ∧
      r'.HeaderStays (c'.declareAll m.before) m.header ∧
      r.Meets r' names (TypeOracle.declareHeader c init)
        (TypeOracle.declareHeader (c'.declareAll m.before) m.header) temps' ∧
      temps.taken ⊆ temps'.taken := by
  obtain ⟨front, mono⟩ := header_front h.within h.sure sub h.taken expanded hinit first h.agrees
  have inner (c : TypeContext) (s : Option Stmt) :
      TypeOracle.declareHeader c s = c.bindAll (s.elim [] c.bindingsOf) := by
    cases s <;> rfl
  have agrees := h.agrees.trans front.fresh
  refine ⟨front.before, agrees, front.header, ?_, mono⟩
  rw [inner, inner, front.declares]
  exact h.bindAll (agrees.bindAll _) mono

theorem Meets.later (h : r.Meets r' names c c' temps) (mono : temps.taken ⊆ temps'.taken) :
    r.Meets r' names c c' temps' :=
  ⟨h.within, h.sure, h.agrees, List.Subset.trans h.taken mono⟩

theorem Meets.value? (h : r.Meets r' names c c' temps) {e e' : Option Expr}
    (sub : namesOfExprs e.toList ⊆ names) (hv : r.value? c e = .ok e') :
    ∀ e ∈ e', r'.Settled c' e := by
  cases e with
  | none =>
    cases ok_pure.1 hv
    nofun
  | some e =>
    simp only [RedirectContext.value?, ok_bind, ok_pure] at hv
    obtain ⟨t, ht, rfl⟩ := hv
    rintro _ ⟨⟩
    have ht := value_becomes h.within h.sure e t ht
    have sub : e.names ⊆ names := by simpa [namesOfExprs] using sub
    exact ht.settled.transfer h.agrees (List.Subset.trans ht.names sub)

-- A construct that declares nothing, behind what left its header.
theorem Walked.construct {before : List Stmt} {s : Stmt} (settles : r.Settles c' before)
    (agrees : c.Agrees names (c'.declareAll before)) (settled : r.StmtSettled (c'.declareAll before) s)
    (inert : ∀ c : TypeContext, c.declare s = c) (mono : temps.taken ⊆ temps'.taken) :
    r.Walked names c c' (before ++ [s]) temps temps' := by
  refine ⟨settles_append.2 ⟨settles, settled, trivial⟩, ?_, mono⟩
  rw [declareAll_append, declareAll, List.foldl_cons, inert]
  exact agrees

mutual

theorem stmt_walked : (s : Stmt) → ∀ {c c' temps elseIf out temps'}, r.Meets r' names c c' temps →
    s.names ⊆ names → s.expand = s → s.Unhidden → r.stmt c elseIf s temps = .ok (out, temps') →
    r'.Walked names (c.declare s) c' out temps temps'
  | .empty _, c, c', _, _, _, _, meets, _, _, _, h => by
    obtain ⟨rfl, rfl⟩ := Redirecting.ok_pure.1 h
    exact ⟨⟨.empty, trivial⟩, meets.agrees, List.Subset.refl _⟩
  | .breakLoop _, c, c', _, _, _, _, meets, _, _, _, h => by
    obtain ⟨rfl, rfl⟩ := Redirecting.ok_pure.1 h
    exact ⟨⟨.breakLoop, trivial⟩, meets.agrees, List.Subset.refl _⟩
  | .continueLoop _, c, c', _, _, _, _, meets, _, _, _, h => by
    obtain ⟨rfl, rfl⟩ := Redirecting.ok_pure.1 h
    exact ⟨⟨.continueLoop, trivial⟩, meets.agrees, List.Subset.refl _⟩
  | .expr e, c, c', _, _, _, _, meets, sub, _, _, h => by
    simp only [stmt, Redirecting.ok_bind, Redirecting.ok_lift, Redirecting.ok_pure] at h
    obtain ⟨t, _, ⟨ht, rfl⟩, rfl, rfl⟩ := h
    have ht := value_becomes meets.within meets.sure e t ht
    have settled := ht.settled.transfer meets.agrees (List.Subset.trans ht.names sub)
    exact ⟨⟨.expr settled, trivial⟩, meets.agrees, List.Subset.refl _⟩
  | .assign span targets op values, c, c', _, _, _, _, meets, sub, expanded, _, h => by
    simp only [stmt, Redirecting.ok_bind, Redirecting.ok_pure] at h
    obtain ⟨p, _, hp, rfl, rfl⟩ := h
    obtain ⟨settled, mono⟩ := plan_settled meets.within meets.sure (List.Subset.refl _) meets.taken
      meets.agrees hp expanded sub
    obtain ⟨settles, declared⟩ := settled.statements
    exact ⟨settles, declared ▸ (meets.agrees.trans settled.fresh).bindAll _, mono⟩
  | .step span target increment, c, c', _, _, _, _, meets, sub, expanded, _, h => by
    simp only [stmt, Redirecting.ok_bind, Redirecting.ok_pure] at h
    obtain ⟨p, _, hp, rfl, rfl⟩ := h
    obtain ⟨settled, mono⟩ := planStep_settled meets.within meets.sure (List.Subset.refl _)
      meets.taken meets.agrees hp expanded sub
    obtain ⟨settles, declared⟩ := settled.statements
    exact ⟨settles, declared ▸ (meets.agrees.trans settled.fresh).bindAll _, mono⟩
  | .var span xs type values, c, c', _, _, _, _, meets, sub, _, unhidden, h => by
    simp only [stmt, Redirecting.ok_bind, Redirecting.ok_lift, Redirecting.ok_pure] at h
    obtain ⟨vs, _, ⟨hv, rfl⟩, rfl, rfl⟩ := h
    have subValues := (List.append_subset.1 sub).2
    have hvs := values_become meets.within meets.sure values vs hv
    have same := varBindings_becomes type xs hvs (.refl _ c) (meets.agrees.mono subValues) unhidden
    refine ⟨⟨.var (becomes_all meets.agrees hvs subValues), trivial⟩, ?_, List.Subset.refl _⟩
    change (c.bindAll (c.varBindings type xs values)).Agrees names
      (c'.bindAll (c'.varBindings type xs (vs.map (·.expr))))
    exact same ▸ meets.agrees.bindAll _
  | .ret span values, c, c', _, _, _, _, meets, sub, _, _, h => by
    simp only [stmt, Redirecting.ok_bind, Redirecting.ok_lift, Redirecting.ok_pure] at h
    obtain ⟨vs, _, ⟨hv, rfl⟩, rfl, rfl⟩ := h
    have hvs := values_become meets.within meets.sure values vs hv
    exact ⟨⟨.ret (becomes_all meets.agrees hvs sub), trivial⟩, meets.agrees, List.Subset.refl _⟩
  | .block (.mk at_ ss), c, c', _, _, _, _, meets, sub, expanded, unhidden, h => by
    simp only [stmt, block, Redirecting.ok_bind, Redirecting.ok_pure] at h
    obtain ⟨_, _, ⟨out, _, hb, rfl, rfl⟩, rfl, rfl⟩ := h
    injection expanded with expanded
    injection expanded with _ expanded
    have body := stmts_walked ss meets sub expanded unhidden hb
    exact ⟨⟨.block body.settles, trivial⟩, meets.agrees, body.mono⟩
  | .ifElse span init cond (.mk at_ ss) orElse, c, c', _, elseIf, _, _, meets, sub, expanded,
      unhidden, h => by
    obtain ⟨m, t, _, orElse', _, _, hm, ht, hb, ho, rfl⟩ := ok_ifElse h
    simp only [block, Redirecting.ok_bind, Redirecting.ok_pure] at hb
    obtain ⟨out, _, hb, rfl, rfl⟩ := hb
    injection expanded with _ expandedInit _ expandedBody expandedElse
    injection expandedBody with _ expandedBody
    obtain ⟨sub, subElse⟩ := List.append_subset.1 sub
    obtain ⟨sub, subBody⟩ := List.append_subset.1 sub
    obtain ⟨subInit, subCond⟩ := List.append_subset.1 sub
    have first : (if elseIf then Header.elseIfInit else .ifInit) ≠ .forPost := by cases elseIf <;> simp
    obtain ⟨before, agrees, header, inner, mono⟩ := meets.inner hm first expandedInit subInit
    have cond := value_becomes inner.within inner.sure cond t ht
    have body := stmts_walked ss inner subBody expandedBody unhidden.1 hb
    obtain ⟨branch, mono'⟩ := branch_walked orElse (inner.later body.mono) subElse expandedElse
      unhidden.2 ho
    have settled := cond.settled.transfer inner.agrees (List.Subset.trans cond.names subCond)
    exact .construct before agrees (.ifElse header settled body.settles branch) (fun _ => rfl)
      (List.Subset.trans mono (List.Subset.trans body.mono mono'))
  | .forLoop span init cond post (.mk at_ ss), c, c', _, _, _, _, meets, sub, expanded, unhidden,
      h => by
    obtain ⟨m, cond', mp, _, _, _, hm, hc, hp, reaches, hb, rfl⟩ := ok_forLoop h
    simp only [block, Redirecting.ok_bind, Redirecting.ok_pure] at hb
    obtain ⟨out, _, hb, rfl, rfl⟩ := hb
    injection expanded with _ expandedInit _ expandedPost expandedBody
    injection expandedBody with _ expandedBody
    obtain ⟨sub, subBody⟩ := List.append_subset.1 sub
    obtain ⟨sub, subPost⟩ := List.append_subset.1 sub
    obtain ⟨subInit, subCond⟩ := List.append_subset.1 sub
    obtain ⟨before, agrees, header, inner, mono⟩ := meets.inner hm nofun expandedInit subInit
    obtain ⟨postSettled, monoPost⟩ := header_post inner.within inner.sure subPost inner.taken
      expandedPost hp (inner.agrees.mono subPost)
    have body := stmts_walked ss (inner.later monoPost) subBody expandedBody unhidden.2 hb
    -- The end of the body is a point like the header, as far as the post statement goes.
    have after : r'.Settles ((TypeOracle.declareHeader (c'.declareAll m.before) m.header).declareAll
        out) mp.after := by
      by_cases none : mp.after = []
      · rw [none]
        trivial
      · exact postSettled.after _ ((agrees_declareAll (unhidden.1 (postSettled.moves none))).trans
          (body.agrees.mono subPost))
    exact .construct before agrees (.forLoop header (inner.value? subCond hc) postSettled.header
      (settles_append.2 ⟨body.settles, after⟩)) (fun _ => rfl)
      (List.Subset.trans mono (List.Subset.trans monoPost body.mono))
  | .range span key value define iterable (.mk at_ ss), c, c', _, _, _, _, meets, sub, expanded,
      unhidden, h => by
    obtain ⟨t, head, _, _, ht, hh, hb, rfl⟩ := ok_range rfl h
    simp only [block, Redirecting.ok_bind, Redirecting.ok_pure] at hb
    obtain ⟨out, _, hb, rfl, rfl⟩ := hb
    injection expanded with _ _ _ _ _ expandedBody
    injection expandedBody with _ expandedBody
    obtain ⟨sub, subBody⟩ := List.append_subset.1 sub
    obtain ⟨subTargets, subIterable⟩ := List.append_subset.1 sub
    have ht := value_becomes meets.within meets.sure iterable t ht
    have settled := ht.settled.transfer meets.agrees (List.Subset.trans ht.names subIterable)
    cases define with
    | true =>
      obtain ⟨rfl, rfl⟩ : head = ⟨key, value, true, []⟩ ∧ _ := by simpa using hh
      have same := (meets.agrees.rangeTypes?_eq (List.Subset.trans ht.names subIterable)).trans
        ht.rangeTypes?_eq
      have agrees (body : Block) : (c.declare (.range span key value true iterable (.mk at_ ss))).Agrees
          names (c'.declare (.range span key value true t.expr body)) := by
        simp only [declare, bindingsOf, same]
        exact meets.agrees.bindAll _
      have body := stmts_walked ss (meets.bindAll (agrees (.mk at_ out)) (List.Subset.refl _)) subBody
        expandedBody unhidden hb
      exact ⟨⟨.range settled rfl nofun body.settles, trivial⟩, agrees _, body.mono⟩
    | false =>
      simp only [Bool.false_eq_true, if_false] at hh
      obtain ⟨loop, mono⟩ := rangeHeader_settled meets.within meets.sure meets.taken meets.agrees hh
        subTargets
      obtain ⟨newKey, newValue, new, prelude⟩ := head
      have agrees : c.Agrees names (c'.declare (.range span newKey newValue new t.expr
          (.mk at_ (prelude ++ out)))) := by
        refine meets.agrees.trans (agrees_declare ?_)
        cases new with
        | true => exact loop.fresh rfl
        | false => nofun
      have inside : (c.bindAll []).Agrees names _ := agrees
      have body := stmts_walked ss (meets.bindAll inside mono) subBody expandedBody unhidden hb
      obtain ⟨written, same⟩ := loop.prelude _ agrees
      have settles := settles_append.2 ⟨written, same.symm ▸ body.settles⟩
      refine ⟨⟨.range settled rfl (fun kept => ?_) settles, trivial⟩, agrees,
        List.Subset.trans mono body.mono⟩
      obtain rfl : new = false := kept
      exact loop.stays rfl
  | .switch span init tag cases, c, c', _, _, _, _, meets, sub, expanded, unhidden, h => by
    obtain ⟨m, tag', cases', _, hm, ht, hc, rfl⟩ := ok_switch h
    injection expanded with _ expandedInit _ expandedCases
    obtain ⟨sub, subCases⟩ := List.append_subset.1 sub
    obtain ⟨subInit, subTag⟩ := List.append_subset.1 sub
    obtain ⟨before, agrees, header, inner, mono⟩ := meets.inner hm nofun expandedInit subInit
    obtain ⟨cases, mono'⟩ := cases_walked cases inner subCases expandedCases unhidden hc
    exact .construct before agrees (.switch header (inner.value? subTag ht) cases) (fun _ => rfl)
      (List.Subset.trans mono mono')
termination_by structural s => s

theorem branch_walked : (s : Option Stmt) → ∀ {c c' temps out temps'}, r.Meets r' names c c' temps →
    namesOfOption s ⊆ names → Stmt.expandOption s = s → Stmt.optionUnhidden s →
    r.branch c s temps = .ok (out, temps') →
    r'.BranchStays c' out ∧ temps.taken ⊆ temps'.taken
  | none, c, c', _, _, _, meets, _, _, _, h => by
    obtain ⟨rfl, rfl⟩ := Redirecting.ok_pure.1 h
    exact ⟨branchStays_none, List.Subset.refl _⟩
  | some s, c, c', _, _, _, meets, sub, expanded, unhidden, h => by
    rcases ok_branch h with ⟨s', rfl, hs⟩ | ⟨rfl, rfl, other⟩
    · have walked := stmt_walked s meets sub (Option.some.inj expanded) unhidden hs
      exact ⟨walked.settles.1.branchStays, walked.mono⟩
    · refine ⟨⟨expanded, fun temps => ?_⟩, List.Subset.refl _⟩
      cases s <;> first | exact other.elim | rfl
termination_by structural s => s

theorem stmts_walked : (ss : List Stmt) → ∀ {c c' temps out temps'}, r.Meets r' names c c' temps →
    namesOfStmts ss ⊆ names → Stmt.expandList ss = ss → Stmt.listUnhidden ss →
    r.stmts c ss temps = .ok (out, temps') →
    r'.Walked names (c.declareAll ss) c' out temps temps'
  | [], c, c', _, _, _, meets, _, _, _, h => by
    obtain ⟨rfl, rfl⟩ := Redirecting.ok_pure.1 h
    exact ⟨trivial, meets.agrees, List.Subset.refl _⟩
  | s :: rest, c, c', _, _, _, meets, sub, expanded, unhidden, h => by
    simp only [stmts, Redirecting.ok_bind, Redirecting.ok_pure] at h
    obtain ⟨first, _, hs, others, _, hrest, rfl, rfl⟩ := h
    obtain ⟨subFirst, subRest⟩ := List.append_subset.1 sub
    injection expanded with expandedFirst expandedRest
    have walked := stmt_walked s meets subFirst expandedFirst unhidden.1 hs
    have walked' := stmts_walked rest (meets.bindAll walked.agrees walked.mono) subRest expandedRest
      unhidden.2 hrest
    refine ⟨settles_append.2 ⟨walked.settles, walked'.settles⟩, ?_,
      List.Subset.trans walked.mono walked'.mono⟩
    rw [declareAll_append]
    exact walked'.agrees
termination_by structural ss => ss

theorem cases_walked : (cs : List Case) → ∀ {c c' temps out temps'}, r.Meets r' names c c' temps →
    namesOfCases cs ⊆ names → Stmt.expandCases cs = cs → Stmt.casesUnhidden cs →
    r.caseList c cs temps = .ok (out, temps') → r'.CasesSettle c' out ∧ temps.taken ⊆ temps'.taken
  | [], c, c', _, _, _, meets, _, _, _, h => by
    obtain ⟨rfl, rfl⟩ := Redirecting.ok_pure.1 h
    exact ⟨trivial, List.Subset.refl _⟩
  | .mk at_ values body :: rest, c, c', _, _, _, meets, sub, expanded, unhidden, h => by
    simp only [caseList, Redirecting.ok_bind, Redirecting.ok_lift, Redirecting.ok_pure] at h
    obtain ⟨vs, _, ⟨hv, rfl⟩, out, _, hb, others, _, hrest, rfl, rfl⟩ := h
    injection expanded with expandedFirst expandedRest
    injection expandedFirst with _ _ expandedBody
    obtain ⟨sub, subRest⟩ := List.append_subset.1 sub
    obtain ⟨subValues, subBody⟩ := List.append_subset.1 sub
    have hvs := values_become meets.within meets.sure values vs hv
    have walked := stmts_walked body meets subBody expandedBody unhidden.1 hb
    obtain ⟨settles, mono⟩ := cases_walked rest (meets.later walked.mono) subRest expandedRest
      unhidden.2 hrest
    exact ⟨⟨becomes_all meets.agrees hvs subValues, walked.settles, settles⟩,
      List.Subset.trans walked.mono mono⟩
termination_by structural cs => cs

end

end

end RedirectContext

end FieldAccess
