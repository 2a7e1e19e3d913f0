import FieldAccess.Proofs.OutputOrder
import FieldAccess.Proofs.TypeAgreement
import Mathlib.Data.List.Find

namespace FieldAccess

-- Two tables that know the same methods, with the same results.
def MethodTable.SameResults (t t' : MethodTable) : Prop :=
  ∀ entity name, (t'.get? entity name).map (·.results) = (t.get? entity name).map (·.results)

namespace TypeContext

-- Two contexts between which nothing in the code tells a difference.
def Matches (c c' : TypeContext) : Prop :=
  ∀ names, Agrees names c c'

namespace Matches

variable {c c' : TypeContext}

theorem of_sameResults {t t' : MethodTable} (same : t.SameResults t') (catalog : Catalog)
    (bindings : List LocalBinding) : Matches ⟨catalog, t, bindings⟩ ⟨catalog, t', bindings⟩ :=
  fun _ => ⟨rfl, same, fun _ _ => rfl⟩

theorem bindAll (h : c.Matches c') (bs : List LocalBinding) :
    (c.bindAll bs).Matches (c'.bindAll bs) :=
  fun names => (h names).bindAll bs

theorem ofMethod {t t' : MethodTable} (same : t.SameResults t') (catalog : Catalog) (f : FuncDecl) :
    (ofMethod catalog t f).Matches (ofMethod catalog t' f) :=
  (of_sameResults same catalog []).bindAll _

variable (h : c.Matches c')
include h

theorem bindingsOf_eq (s : Stmt) : c'.bindingsOf s = c.bindingsOf s :=
  (h s.names).bindingsOf_eq (List.Subset.refl _)

theorem declare (s : Stmt) : (c.declare s).Matches (c'.declare s) := by
  rw [TypeContext.declare, TypeContext.declare, h.bindingsOf_eq]
  exact h.bindAll _

theorem declareHeader (header : Option Stmt) :
    (TypeOracle.declareHeader c header).Matches (TypeOracle.declareHeader c' header) := by
  cases header with
  | none => exact h
  | some s => exact h.declare s

theorem headerTypes_eq (header : Option Stmt) : c'.headerTypes header = c.headerTypes header := by
  cases header with
  | none => rfl
  | some s => exact congrArg boundTypes (h.bindingsOf_eq s)

end Matches

-- Types of bound names: a case for each form of statement, with the context that it opens.
mutual

theorem typesIn_eq {c c' : TypeContext} (h : c.Matches c') : (s : Stmt) → c'.typesIn s = c.typesIn s
  | .block body => typesInBlock_eq h body
  | .ifElse _ init _ body orElse => by
    have inner := h.declareHeader init
    rw [typesIn, typesIn, h.headerTypes_eq, typesInBlock_eq inner body, typesInBranch_eq inner orElse]
  | .forLoop _ init _ _ body => by
    rw [typesIn, typesIn, h.headerTypes_eq, typesInBlock_eq (h.declareHeader init) body]
  | .range span key value define iterable body => by
    rw [typesIn, typesIn, h.bindingsOf_eq, typesInBlock_eq (h.bindAll _) body]
  | .switch _ init _ cases => by
    rw [typesIn, typesIn, h.headerTypes_eq, typesInCases_eq (h.declareHeader init) cases]
  | .var span names type values => congrArg boundTypes (h.bindingsOf_eq (.var span names type values))
  | .assign span targets op values =>
    congrArg boundTypes (h.bindingsOf_eq (.assign span targets op values))
  | .expr _ | .step _ _ _ | .ret _ _ | .empty _ | .breakLoop _ | .continueLoop _ => rfl
termination_by structural s => s

theorem typesInBranch_eq {c c' : TypeContext} (h : c.Matches c') :
    (s : Option Stmt) → c'.typesInBranch s = c.typesInBranch s
  | none => rfl
  | some s => typesIn_eq h s
termination_by structural s => s

theorem typesInBlock_eq {c c' : TypeContext} (h : c.Matches c') :
    (b : Block) → c'.typesInBlock b = c.typesInBlock b
  | .mk _ ss => typesInList_eq h ss
termination_by structural b => b

theorem typesInCases_eq {c c' : TypeContext} (h : c.Matches c') :
    (cs : List Case) → c'.typesInCases cs = c.typesInCases cs
  | [] => rfl
  | .mk _ _ body :: rest => by
    rw [typesInCases, typesInCases, typesInList_eq h body, typesInCases_eq h rest]
termination_by structural cs => cs

theorem typesInList_eq {c c' : TypeContext} (h : c.Matches c') :
    (ss : List Stmt) → c'.typesInList ss = c.typesInList ss
  | [] => rfl
  | s :: rest => by
    have rest : ((if s.isRange then c' else c'.declare s).typesInList rest) =
        (if s.isRange then c else c.declare s).typesInList rest := by
      split
      · exact typesInList_eq h rest
      · exact typesInList_eq (h.declare s) rest
    rw [typesInList, typesInList, typesIn_eq h s, rest]
termination_by structural ss => ss

end

end TypeContext

namespace RedirectContext

open TypeContext

variable {r : RedirectContext} {c c' : TypeContext}

theorem value_same (h : c.Matches c') : r.value c' = r.value c :=
  funext fun e => value_eq (h e.names) e (List.Subset.refl _)

theorem values_same (h : c.Matches c') : r.values c' = r.values c :=
  funext fun es => values_eq (h (namesOfExprs es)) es (List.Subset.refl _)

theorem value?_same (h : c.Matches c') : r.value? c' = r.value? c := by
  funext e
  cases e with
  | none => rfl
  | some e => rw [value?, value?, value_same h]

theorem target_same (h : c.Matches c') : r.target c' = r.target c :=
  funext fun e => target_eq (h e.names) e (List.Subset.refl _)

theorem planAssign_same (h : c.Matches c') : r.planAssign c' = r.planAssign c := by
  unfold planAssign targets
  rw [values_same h, target_same h]

theorem planCompound_same (h : c.Matches c') : r.planCompound c' = r.planCompound c := by
  unfold planCompound
  rw [value_same h, target_same h]

theorem plan_same (h : c.Matches c') : r.plan c' = r.plan c := by
  unfold plan
  rw [planAssign_same h, planCompound_same h, values_same h]

theorem planStep_same (h : c.Matches c') : r.planStep c' = r.planStep c := by
  unfold planStep
  rw [planAssign_same h, planCompound_same h]

theorem header_same (h : c.Matches c') : r.header c' = r.header c := by
  funext place header
  unfold RedirectContext.header
  rw [plan_same h, planStep_same h, value_same h]

theorem rangeHeader_same (h : c.Matches c') : r.rangeHeader c' = r.rangeHeader c := by
  unfold rangeHeader
  rw [target_same h]

-- The walk: a case for each form of statement, as for the types above.
mutual

theorem stmt_same {c c' : TypeContext} (h : c.Matches c') (elseIf : Bool) :
    (s : Stmt) → r.stmt c' elseIf s = r.stmt c elseIf s
  | .empty _ | .breakLoop _ | .continueLoop _ => rfl
  | .expr e => by rw [stmt, stmt, value_same h]
  | .assign span targets op values => by rw [stmt, stmt, plan_same h]
  | .step span target increment => by rw [stmt, stmt, planStep_same h]
  | .var span names type values => by rw [stmt, stmt, values_same h]
  | .ret span values => by rw [stmt, stmt, values_same h]
  | .block body => by rw [stmt, stmt, block_same h body]
  | .ifElse span init cond body orElse => by
    have inner := h.declareHeader init
    simp only [stmt, header_same h, value_same inner, block_same inner body,
      branch_same inner orElse]
  | .forLoop span init cond post body => by
    have inner := h.declareHeader init
    simp only [stmt, header_same h, value?_same inner, header_same inner, block_same inner body]
  | .range span key value define iterable body => by
    have inner : (TypeOracle.declare c (.range span key value define iterable body)).Matches
        (TypeOracle.declare c' (.range span key value define iterable body)) := h.declare _
    simp only [stmt, value_same h, rangeHeader_same inner, block_same inner body]
  | .switch span init tag cases => by
    have inner := h.declareHeader init
    simp only [stmt, header_same h, value?_same inner, caseList_same inner cases]
termination_by structural s => s

theorem branch_same {c c' : TypeContext} (h : c.Matches c') :
    (s : Option Stmt) → r.branch c' s = r.branch c s
  | none => rfl
  | some s => by
    have same := stmt_same h true s
    cases s <;> first | rfl | simp only [branch, same]
termination_by structural s => s

theorem block_same {c c' : TypeContext} (h : c.Matches c') :
    (b : Block) → r.block c' b = r.block c b
  | .mk _ ss => by rw [block, block, stmts_same h ss]
termination_by structural b => b

theorem stmts_same {c c' : TypeContext} (h : c.Matches c') :
    (ss : List Stmt) → r.stmts c' ss = r.stmts c ss
  | [] => rfl
  | s :: rest => by
    rw [stmts, stmts, stmt_same h false s]
    exact congrArg (_ >>= ·) (funext fun first =>
      congrArg (· >>= _) (stmts_same (h.declare s) rest))
termination_by structural ss => ss

theorem caseList_same {c c' : TypeContext} (h : c.Matches c') :
    (cs : List Case) → r.caseList c' cs = r.caseList c cs
  | [] => rfl
  | .mk span values body :: rest => by
    simp only [caseList, values_same h, stmts_same h body, caseList_same h rest]
termination_by structural cs => cs

end

end RedirectContext

namespace FuncDecl

variable {t t' : MethodTable}

theorem redirectScope_same (f : FuncDecl) (same : t.SameResults t') (catalog : Catalog) :
    f.redirectScope catalog t' = f.redirectScope catalog t := by
  have types : TypeContext.typesInMethod catalog t' f.expand =
      TypeContext.typesInMethod catalog t f.expand :=
    congrArg (_ ++ ·) (TypeContext.typesInBlock_eq (.ofMethod same catalog f.expand) _)
  rw [redirectScope, redirectScope, types]

-- What a method becomes depends on the results of the methods that are declared, and on nothing else
-- of them.
theorem redirect_same (f : FuncDecl) (same : t.SameResults t') (catalog : Catalog)
    (settings : Settings) : f.redirect catalog t' settings = f.redirect catalog t settings := by
  have body (scope : RedirectScope) :
      f.expand.redirectIn settings (TypeContext.ofMethod catalog t' f.expand) scope =
        f.expand.redirectIn settings (TypeContext.ofMethod catalog t f.expand) scope := by
    rw [redirectIn, redirectIn, RedirectContext.block_same (.ofMethod same catalog f.expand)]
  rw [redirect_eq, redirect_eq, f.redirectScope_same same, funext body]

-- What a method is found under.
def key? (f : FuncDecl) : Option (String × String) :=
  f.receiverEntity?.map (·, f.name)

theorem key?_eq_some {f : FuncDecl} {entity name : String} :
    f.key? = some (entity, name) ↔ f.receiverEntity? = some entity ∧ f.name = name := by
  simp [key?]

end FuncDecl

-- At most one method is found under each key.
theorem subsingleton_of_nodup_keys {methods : List FuncDecl}
    (once : (methods.filterMap (·.key?)).Nodup) (key : String × String) :
    {f | f ∈ methods ∧ f.key? = some key}.Subsingleton := by
  intro f hf f' hf'
  induction methods with
  | nil => cases hf.1
  | cons m rest ih =>
    have fresh (hm : m.key? = some key) : ∀ g ∈ rest, g.key? ≠ some key := by
      rw [List.filterMap_cons_some hm] at once
      exact fun g hg hk => (List.nodup_cons.1 once).1 (List.mem_filterMap.2 ⟨g, hg, hk⟩)
    have onceRest : (rest.filterMap (·.key?)).Nodup :=
      once.sublist ((List.sublist_cons_self m rest).filterMap _)
    rcases List.mem_cons.1 hf.1 with rfl | mem <;> rcases List.mem_cons.1 hf'.1 with rfl | mem'
    · rfl
    · exact absurd hf'.2 (fresh hf.2 f' mem')
    · exact absurd hf.2 (fresh hf'.2 f mem)
    · exact ih onceRest ⟨mem, hf.2⟩ ⟨mem', hf'.2⟩

namespace MethodTable

-- Where no method is declared twice, their order has no part in what is found.
theorem sameResults_of_perm {methods methods' : List FuncDecl} (perm : methods.Perm methods')
    (once : (methods.filterMap (·.key?)).Nodup) : SameResults ⟨methods⟩ ⟨methods'⟩ := by
  intro entity name
  have found : methods.reverse.find? (fun f => f.receiverEntity? = some entity && f.name = name) =
      methods'.reverse.find? (fun f => f.receiverEntity? = some entity && f.name = name) := by
    refine List.find?_eq_find?_of_perm
      ((List.reverse_perm _).trans (perm.trans (List.reverse_perm _).symm)) ?_
    refine (subsingleton_of_nodup_keys once (entity, name)).anti fun f hf => ?_
    refine ⟨List.mem_reverse.1 hf.1, FuncDecl.key?_eq_some.2 ?_⟩
    simpa using hf.2
  exact congrArg (Option.map (·.results)) found.symm

end MethodTable

section

variable {methods methods' : List FuncDecl}

theorem Catalog.declarationsFrom_perm (perm : methods.Perm methods') (enums : EnumTable)
    (settings : Settings) (emitted : List String) (es : List EntityFields) :
    (declarationsFrom enums settings methods emitted es).Perm
      (declarationsFrom enums settings methods' emitted es) := by
  induction es generalizing emitted with
  | nil => exact .refl _
  | cons e rest ih =>
    have functions : (e.functions settings methods).Perm (e.functions settings methods') :=
      ((perm.filter _).append_right _).append_right _
    exact (((functions.map _).cons _).append_left _).append (ih _)

theorem Namespace.allCollisions_perm (perm : methods.Perm methods') (reserved : List String)
    (es : List EntityFields)
    (apart : allCollisions reserved (es.map (ofEntity · methods)) = []) :
    allCollisions reserved (es.map (ofEntity · methods')) = [] := by
  rw [allCollisions_eq_nil_iff, List.forall_mem_map] at apart ⊢
  intro e he
  obtain ⟨type, free, distinct⟩ := collisions_eq_nil_iff.1 (apart e he)
  have members : (ofEntity e methods).members.Perm (ofEntity e methods').members :=
    ((perm.filter _).map _).append_left _
  exact collisions_eq_nil_iff.2
    ⟨type, fun m hm => free m (members.mem_iff.2 hm), (members.map _).nodup_iff.1 distinct⟩

end

namespace Run

variable {schema : Schema} {settings : Settings} {methods methods' redirected : List FuncDecl}

theorem Redirects.perm (each : Redirects schema settings methods redirected)
    (perm : methods.Perm methods') (same : MethodTable.SameResults ⟨methods⟩ ⟨methods'⟩) :
    ∃ redirected', Redirects schema settings methods' redirected' ∧ redirected.Perm redirected' := by
  obtain ⟨redirected', become, permuted⟩ := List.perm_comp_forall₂ perm.symm each.each
  refine ⟨redirected', ?_, permuted.symm⟩
  rw [Redirects, ← List.forall₂_eq_eq_eq]
  refine List.forall₂_map_left_iff.2 (List.forall₂_map_right_iff.2 (become.imp fun f f' h => ?_))
  rw [f.redirect_same same, h]

-- A method becomes the same, or fails in the same way, with any methods beside it that have the same
-- results under the same names. So a run with its methods in another order, none declared twice,
-- gives what the run gives, in another order.
theorem methods_independent (schema : Schema) (settings : Settings) :
    let catalog := (Catalog.build schema settings {}).value
    (∀ methods methods', MethodTable.SameResults ⟨methods⟩ ⟨methods'⟩ →
      ∀ f : FuncDecl, f.redirect catalog ⟨methods'⟩ settings = f.redirect catalog ⟨methods⟩ settings) ∧
    ∀ methods methods', methods.Perm methods' → (methods.filterMap (·.key?)).Nodup →
      (∀ f : FuncDecl,
        f.redirect catalog ⟨methods'⟩ settings = f.redirect catalog ⟨methods⟩ settings) ∧
      (methods.map (·.redirect catalog ⟨methods⟩ settings)).Perm
        (methods'.map (·.redirect catalog ⟨methods'⟩ settings)) ∧
      ∀ g, (ofSchema schema settings methods).result = .ok g →
        ∃ g' redirected redirected', (ofSchema schema settings methods').result = .ok g' ∧
          Redirects schema settings methods redirected ∧
          Redirects schema settings methods' redirected' ∧
          redirected.Perm redirected' ∧ g.declarations.Perm g'.declarations ∧ g'.enums = g.enums := by
  intro catalog
  refine ⟨fun methods methods' same f => f.redirect_same same catalog settings,
    fun methods methods' perm once => ?_⟩
  have same := MethodTable.sameResults_of_perm perm once
  have unchanged (f : FuncDecl) := f.redirect_same same catalog settings
  refine ⟨unchanged, ?_, fun g ran => ?_⟩
  · rw [funext unchanged]
    exact perm.map _
  · obtain ⟨⟨redirected, each⟩, mild⟩ := clear_of_ok ran
    obtain ⟨redirected', each', permuted⟩ := each.perm perm same
    rw [result_of_redirects each mild] at ran
    dsimp only at ran
    split at ran
    case isFalse => cases ran
    case isTrue apart =>
      obtain rfl := Except.ok.inj ran
      have ran' := result_of_redirects each' mild
      rw [if_pos (Namespace.allCollisions_perm perm _ _ apart)] at ran'
      exact ⟨_, redirected, redirected', ran', each, each', permuted,
        Catalog.declarationsFrom_perm permuted _ _ _ _, rfl⟩

-- The method `func (c *Counter) Next() int { return c.Read() + c.value }`.
def counterNext : FuncDecl where
  doc := none
  receiver := some ⟨"c", .pointer (.named "Counter")⟩
  name := "Next"
  typeParams := []
  params := []
  results := [.int]
  body := .mk .nowhere [.ret .nowhere [.binary .nowhere .add
    (.call .nowhere (.select .nowhere (.ident .nowhere "c") "Read") [] [])
    (.select .nowhere (.ident .nowhere "c") "value")]]
  span := .nowhere

-- The method that calls becomes the same with another body of the method it calls, and the two may
-- change places.
theorem methods_independent_counter :
    let catalog := (Catalog.build .counter .standard {}).value
    let idle : FuncDecl := { counterRead with body := .mk .nowhere [] }
    counterNext.redirect catalog ⟨[idle]⟩ .standard =
        counterNext.redirect catalog ⟨[counterRead]⟩ .standard ∧
      ∃ g g' redirected redirected',
        (ofSchema .counter .standard [counterRead, counterNext]).result = .ok g ∧
        (ofSchema .counter .standard [counterNext, counterRead]).result = .ok g' ∧
        Redirects .counter .standard [counterRead, counterNext] redirected ∧
        Redirects .counter .standard [counterNext, counterRead] redirected' ∧
        redirected.Perm redirected' ∧ redirected.map (·.name) = ["Read", "Next"] := by
  intro catalog idle
  obtain ⟨bodies, orders⟩ := methods_independent .counter .standard
  refine ⟨bodies [counterRead] [idle] (fun entity name => ?_) counterNext, ?_⟩
  · by_cases found : counterRead.receiverEntity? = some entity ∧ counterRead.name = name
    · obtain ⟨receiver, rfl⟩ := found
      obtain rfl : "Counter" = entity := Option.some.inj receiver
      rfl
    · have missing (f : FuncDecl) (receiver : f.receiverEntity? = counterRead.receiverEntity?)
          (named : f.name = counterRead.name) :
          MethodTable.get? ⟨[f]⟩ entity name = none := by
        refine List.find?_eq_none.2 fun f' hf' => ?_
        obtain rfl := List.mem_singleton.1 (List.mem_reverse.1 hf')
        simpa [receiver, named] using found
      rw [missing idle rfl rfl, missing counterRead rfl rfl]
  · let methods := [counterRead, counterNext]
    have alone (f : FuncDecl) (receiver : f.receiverEntity? = some "Counter")
        (own : ∀ entity ∈ (TypeContext.typesInMethod catalog ⟨methods⟩ f.expand).filterMap
          (·.namedTarget?), entity = "Counter") :
        f.redirectScope catalog ⟨methods⟩ = .ok ⟨catalog, ["Counter"]⟩ := by
      have entity : f.receiverEntity?.getD "" = "Counter" := by rw [receiver]; rfl
      have known : catalog.entity? (f.receiverEntity?.getD "") =
          some (catalog.entities.head (by decide)) := by rw [entity]; rfl
      have scope : f.redirectScope catalog ⟨methods⟩ = _ :=
        FuncDecl.redirectScope_isolated known (by decide +kernel) (by rw [entity]; exact own)
      rwa [entity] at scope
    obtain ⟨read, readOk⟩ : ∃ f, counterRead.redirect catalog ⟨methods⟩ .standard = .ok f := by
      rw [FuncDecl.redirect_eq, alone counterRead rfl (by decide)]
      exact exists_ok (by decide +kernel)
    obtain ⟨next, nextOk⟩ : ∃ f, counterNext.redirect catalog ⟨methods⟩ .standard = .ok f := by
      rw [FuncDecl.redirect_eq, alone counterNext rfl (by decide)]
      exact exists_ok (by decide +kernel)
    have each : Redirects .counter .standard methods [read, next] :=
      congrArg₂ (· :: · :: []) readOk nextOk
    have apart : Namespace.allCollisions Settings.standard.reserved
        (catalog.entities.map (Namespace.ofEntity · methods)) = [] := by decide +kernel
    have ran := result_of_redirects each fun strict => by cases strict
    rw [if_pos apart] at ran
    obtain ⟨-, -, reordered⟩ := orders methods [counterNext, counterRead] (.swap ..) (by decide)
    obtain ⟨g', redirected, redirected', ran', both, both', permuted, -, -⟩ := reordered _ ran
    obtain rfl := each.unique both
    refine ⟨_, g', _, redirected', ran, ran', each, both', permuted, ?_⟩
    rw [FuncDecl.redirect_header readOk, FuncDecl.redirect_header nextOk]
    rfl

end Run

end FieldAccess
