import FieldAccess.Proofs.CallWalk
import FieldAccess.Proofs.FieldSelectors
import FieldAccess.Proofs.WrapperMembers

namespace FieldAccess

namespace Stmt

mutual

-- What is written out holds no shorthands any more.
theorem hasShorthand_expand : (s : Stmt) → s.expand.hasShorthand = false
  | .assign span targets (.compound op) values => by
    by_cases repeatable : areRepeatable targets
    · rw [expand, if_pos repeatable]
      rfl
    · rw [expand, if_neg repeatable]
      exact Bool.eq_false_iff.2 repeatable
  | .step span target increment => by
    by_cases free : target.isCallFree
    · rw [expand, if_pos free]
      rfl
    · rw [expand, if_neg free]
      exact Bool.eq_false_iff.2 free
  | .block body => blockHasShorthand_expand body
  | .ifElse span init cond body orElse => by
    simp only [expand, hasShorthand, optionHasShorthand_expand init, blockHasShorthand_expand body,
      optionHasShorthand_expand orElse, Bool.or_false]
  | .forLoop span init cond post body => by
    simp only [expand, hasShorthand, optionHasShorthand_expand init, optionHasShorthand_expand post,
      blockHasShorthand_expand body, Bool.or_false]
  | .range span key value define iterable body => blockHasShorthand_expand body
  | .switch span init tag cases => by
    simp only [expand, hasShorthand, optionHasShorthand_expand init, casesHaveShorthand_expand cases,
      Bool.or_false]
  | .assign _ _ .assign _ | .assign _ _ .define _ | .empty _ | .breakLoop _ | .continueLoop _
  | .expr _ | .var _ _ _ _ | .ret _ _ => rfl
termination_by structural s => s

theorem optionHasShorthand_expand : (s : Option Stmt) → optionHasShorthand (expandOption s) = false
  | none => rfl
  | some s => hasShorthand_expand s
termination_by structural s => s

theorem blockHasShorthand_expand : (b : Block) → blockHasShorthand (expandBlock b) = false
  | .mk _ statements => listHasShorthand_expand statements
termination_by structural b => b

theorem listHasShorthand_expand : (ss : List Stmt) → listHasShorthand (expandList ss) = false
  | [] => rfl
  | s :: rest => by
    simp only [expandList, listHasShorthand, hasShorthand_expand s, listHasShorthand_expand rest,
      Bool.or_false]
termination_by structural ss => ss

theorem casesHaveShorthand_expand : (cs : List Case) → casesHaveShorthand (expandCases cs) = false
  | [] => rfl
  | .mk _ values body :: rest => by
    simp only [expandCases, casesHaveShorthand, listHasShorthand_expand body,
      casesHaveShorthand_expand rest, Bool.or_false]
termination_by structural cs => cs

end

end Stmt

namespace RedirectContext

-- A target that is written twice calls nothing.
theorem expandCompound_calls {op : BinaryOp} {targets values : List Expr}
    (repeatable : Stmt.areRepeatable targets) :
    callsAmong ((Stmt.expandCompound op targets values).1.flatMap Expr.accesses) +
        callsAmong ((Stmt.expandCompound op targets values).2.flatMap Expr.accesses) ≤
      callsAmong (targets.flatMap Expr.accesses) + callsAmong (values.flatMap Expr.accesses) := by
  unfold Stmt.expandCompound
  split
  case h_1 target others value _ =>
    have free : callsAmong target.accesses = 0 :=
      callsAmong_of_isCallFree (List.all_eq_true.1 repeatable target (List.mem_cons_self ..))
    simp only [List.flatMap_cons, List.flatMap_nil, List.append_nil, Expr.accesses,
      callsAmong_append, callsAmong_asOperandOf, free, zero_add]
    exact (Multiset.le_add_right _ _).trans (Multiset.le_add_left _ _)
  case h_2 => exact le_rfl

end RedirectContext

namespace Stmt

mutual

-- To write a shorthand out adds no calls.
theorem expand_calls : (s : Stmt) → callsAmong s.expand.accesses ≤ callsAmong s.accesses
  | .assign span targets (.compound op) values => by
    rw [expand]
    split
    case isTrue repeatable =>
      simp only [accesses, callsAmong_append]
      exact RedirectContext.expandCompound_calls repeatable
    case isFalse => exact le_rfl
  | .step span target increment => by
    rw [expand]
    split
    case isTrue free =>
      simp only [accesses, callsAmong_append, List.flatMap_singleton,
        RedirectContext.steppedValue_calls free, add_zero]
      exact le_rfl
    case isFalse => exact le_rfl
  | .block body => expandBlock_calls body
  | .ifElse span init cond body orElse => by
    simp only [expand, accesses, callsAmong_append]
    exact add_le_add (add_le_add (add_le_add (expandOption_calls init) le_rfl)
      (expandBlock_calls body)) (expandOption_calls orElse)
  | .forLoop span init cond post body => by
    simp only [expand, accesses, callsAmong_append]
    exact add_le_add (add_le_add (add_le_add (expandOption_calls init) le_rfl)
      (expandOption_calls post)) (expandBlock_calls body)
  | .range span key value define iterable body => by
    simp only [expand, accesses, callsAmong_append]
    exact add_le_add le_rfl (expandBlock_calls body)
  | .switch span init tag cases => by
    simp only [expand, accesses, callsAmong_append]
    exact add_le_add (add_le_add (expandOption_calls init) le_rfl) (expandCases_calls cases)
  | .assign _ _ .assign _ | .assign _ _ .define _ | .empty _ | .breakLoop _ | .continueLoop _
  | .expr _ | .var _ _ _ _ | .ret _ _ => le_rfl
termination_by structural s => s

theorem expandOption_calls :
    (s : Option Stmt) → callsAmong (accessesOfOption (expandOption s)) ≤ callsAmong (accessesOfOption s)
  | none => le_rfl
  | some s => expand_calls s
termination_by structural s => s

theorem expandBlock_calls : (b : Block) → callsAmong (expandBlock b).accesses ≤ callsAmong b.accesses
  | .mk _ statements => expandList_calls statements
termination_by structural b => b

theorem expandList_calls :
    (ss : List Stmt) → callsAmong (accessesOfStmts (expandList ss)) ≤ callsAmong (accessesOfStmts ss)
  | [] => le_rfl
  | s :: rest => by
    simp only [expandList, accessesOfStmts, callsAmong_append]
    exact add_le_add (expand_calls s) (expandList_calls rest)
termination_by structural ss => ss

theorem expandCases_calls :
    (cs : List Case) → callsAmong (accessesOfCases (expandCases cs)) ≤ callsAmong (accessesOfCases cs)
  | [] => le_rfl
  | .mk _ values body :: rest => by
    simp only [expandCases, accessesOfCases, callsAmong_append]
    exact add_le_add (add_le_add le_rfl (expandList_calls body)) (expandCases_calls rest)
termination_by structural cs => cs

end

end Stmt

-- What a proxied field is found by: the type of the base names its entity.
theorem RedirectContext.field_of_resolve {σ : Type} [TypeOracle σ] {r : RedirectContext} {o : σ}
    {base : Option StaticType} {member : String} {span : Span} {info : FieldInfo}
    (h : r.resolve o base member span = .ok (.proxied info)) :
    info.isProxied ∧ ∃ type entity, base = some (.known type) ∧ type.namedTarget? = some entity ∧
      r.scope.catalog.field? entity member = some info := by
  unfold resolve at h
  split at h
  · cases ok_pure.1 h
  case h_2 type known =>
    split at h
    · cases ok_pure.1 h
    case h_2 found resolved =>
      obtain ⟨entity, named, inScope⟩ := Option.bind_eq_some_iff.1 resolved
      obtain ⟨static, rfl, same⟩ := Option.bind_eq_some_iff.1 known
      split at h
      case isFalse => cases ok_pure.1 h
      case isTrue =>
        split at h
        case h_1 proxied =>
          cases ok_pure.1 h
          refine ⟨by simp [FieldInfo.isProxied, proxied, Access.isProxied, Access.classification?],
            type, entity, ?_, named, ?_⟩
          · cases static <;> simp_all [StaticType.known?]
          · rw [RedirectScope.field?] at inScope
            split at inScope
            · exact inScope
            · cases inScope
        case h_2 => cases ok_pure.1 h
        case h_3 => simp [fail, ok_throw] at h

namespace FuncDecl

variable {f g : FuncDecl} {catalog : Catalog} {methods : MethodTable} {settings : Settings}
  {scope : RedirectScope}

theorem redirectScope_of_redirect (h : f.redirect catalog methods settings = .ok g) :
    ∃ scope, f.redirectScope catalog methods = .ok scope := by
  rw [redirect_eq] at h
  cases hs : f.redirectScope catalog methods with
  | error => simp [hs, Except.bind] at h
  | ok scope => exact ⟨scope, rfl⟩

-- A method that is redirected is one of an entity, where a function without a receiver passes for one
-- of the entity with the empty name.
theorem exists_receiver_of_redirect (h : f.redirect catalog methods settings = .ok g) :
    ∃ e ∈ catalog.entities, e.name = g.receiverEntity?.getD "" := by
  have same : g.receiverEntity? = f.receiverEntity? := by rw [redirect_header h]; rfl
  simp only [redirect, ok_bind] at h
  obtain ⟨scope, opened, _⟩ := h
  rw [receiverScope, ← same] at opened
  split at opened
  case h_2 => simp [ok_throw] at opened
  case h_1 of =>
    unfold RedirectScope.of? RedirectScope.include? at of
    split at of
    case isFalse => cases of
    case isTrue known =>
      obtain ⟨e, he⟩ := Option.isSome_iff_exists.1 known
      exact ⟨e, Catalog.mem_of_entity? he, Catalog.name_of_entity? he⟩

theorem exists_entity_of_redirect {entity : String} (h : f.redirect catalog methods settings = .ok g)
    (receiver : g.receiverEntity? = some entity) : ∃ e ∈ catalog.entities, e.name = entity := by
  simpa [receiver] using exists_receiver_of_redirect h

theorem redirect_weaves (hs : f.redirectScope catalog methods = .ok scope)
    (h : f.redirect catalog methods settings = .ok g) :
    Weaves ⟨f.name, scope, settings⟩ (f.visits catalog methods) g.body.statements
      (callsAmong f.expand.body.accesses) (callsAmong g.body.accesses) := by
  rw [redirect_eq, hs] at h
  simp only [Except.bind, redirectIn, ok_bind, ok_pure] at h
  obtain ⟨⟨body, temps⟩, hb, rfl⟩ := h
  exact RedirectContext.block_weaves _ (Stmt.blockHasShorthand_expand f.body) hb

end FuncDecl

-- What the name in a call that is inserted for a field stands for: a function of the field's entity
-- with as many parameters, the enumeration of the field, or a function that converts to it.
inductive FieldInfo.Declared (settings : Settings) (info : FieldInfo) (ds : List Decl) :
    Expr → Prop
  | accessor {span at_ : Span} {place : Expr} {f : FuncDecl} (declared : .func f ∈ ds)
      (receiver : f.receiverEntity? = some info.entity) (called : f.name = info.accessor)
      (params : f.params = []) :
      Declared settings info ds (.call span (.select at_ place info.accessor) [] [])
  | mutator {span at_ : Span} {place arg : Expr} {f : FuncDecl} {param : Param}
      (declared : .func f ∈ ds) (receiver : f.receiverEntity? = some info.entity)
      (called : f.name = info.mutator) (params : f.params = [param]) :
      Declared settings info ds (.call span (.select at_ place info.mutator) [] [arg])
  | conversion {enum : String} {span : Span} {arg : Expr} (converts : info.enum? = some enum)
      (declared : .defined enum .int ∈ ds) :
      Declared settings info ds (.callNamed enum [arg] span)
  | sliceHelper {enum : String} {span : Span} {arg : Expr} {f : FuncDecl} {param : Param}
      (converts : info.enum? = some enum) (declared : .func f ∈ ds) (alone : f.receiver = none)
      (called : f.name = settings.sliceHelper enum) (params : f.params = [param]) :
      Declared settings info ds (.callNamed (settings.sliceHelper enum) [arg] span)

namespace Catalog

variable {catalog : Catalog} {enums : EnumTable} {methods : List FuncDecl}
  {entity member : String} {info : FieldInfo}

theorem mem_of_field? (h : catalog.field? entity member = some info) :
    ∃ e ∈ catalog.entities, e.name = entity ∧ info ∈ e.fields := by
  obtain ⟨e, he, hf⟩ := Option.bind_eq_some_iff.1 h
  exact ⟨e, mem_of_entity? he, name_of_entity? he, List.mem_of_find?_eq_some hf⟩

theorem name_of_field? (h : catalog.field? entity member = some info) : info.name = member := by
  obtain ⟨_, _, found⟩ := Option.bind_eq_some_iff.1 h
  simpa using List.find?_some found

-- Whatever is inserted for a field of the catalog is declared with it.
theorem declared_of_becomes {r : RedirectContext} {v : Visit TypeContext} {code : List Stmt}
    {base c : Expr} (built : EntitiesBuilt r.settings enums catalog.entities)
    (found : catalog.field? entity member = some info) (proxied : info.isProxied)
    (h : v.BecomesCall r code base info c) :
    info.Declared r.settings (catalog.declarations enums r.settings methods) c := by
  obtain ⟨e, he, rfl, hi⟩ := mem_of_field? found
  obtain ⟨class_, classified⟩ := FieldInfo.isProxied_iff.1 proxied
  have backed := (built.fields e he).backed info hi class_ classified
  have own := (built.fields e he).entity info hi
  obtain ⟨pair, made, accessor, mutator, onAccessor, onMutator⟩ :=
    FieldInfo.accessors?_of_backed classified backed
  obtain ⟨none, param, one⟩ := FieldInfo.params_of_accessors? made
  obtain ⟨hasAccessor, hasMutator⟩ := e.accessor_mem_functions methods hi made
  have entry {enum : String} (converts : info.enum? = some enum) :
      ∃ entry, info.enum?.bind enums.get? = some entry ∧ entry.name = enum := by
    rw [FieldInfo.enum?, classified] at converts
    cases backed with
    | primitive | relation => cases converts
    | @enumeration spec entry multiplicity _ _ _ found _ =>
      cases converts
      exact ⟨entry, by rw [FieldInfo.enum?, classified]; exact found, rfl⟩
  have read (span at_ : Span) (place : Expr) :
      info.Declared r.settings (catalog.declarations enums r.settings methods)
        (.call span (.select at_ place info.accessor) [] []) :=
    .accessor (func_mem_declarationsFrom he hasAccessor) onAccessor accessor none
  unfold Visit.BecomesCall at h
  split at h
  case h_1 =>
    obtain rfl := h
    exact read ..
  case h_2 =>
    cases h with
    | accessor => exact read ..
    | mutator =>
      exact .mutator (func_mem_declarationsFrom he hasMutator) onMutator mutator one
    | conversion converts =>
      cases converts with
      | one converts =>
        obtain ⟨entry, found, rfl⟩ := entry converts
        have declared := enum_mem_declarationsFrom r.settings methods [] he hi found (.head _)
        exact .conversion converts (declared.resolve_left (by simp))
      | slice converts =>
        obtain ⟨entry, found, rfl⟩ := entry converts
        have declared := enum_mem_declarationsFrom r.settings methods [] he hi found
          (.tail _ (.tail _ (.tail _ (.tail _ (.head _)))))
        exact .sliceHelper converts (declared.resolve_left (by simp)) rfl rfl rfl

end Catalog

-- The field that a selector denotes: what it is applied to has a type that names the entity of the
-- field, and the catalog has the field.
structure Visit.OfField (r : RedirectContext) (catalog : Catalog) (v : Visit TypeContext)
    (base : TypedExpr) (info : FieldInfo) : Prop where
  value : r.value v.oracle v.base = .ok base
  entity : ∃ type, base.type = some (.known type) ∧ type.namedTarget? = some info.entity
  field : catalog.field? info.entity v.member = some info

namespace Run

-- A run that succeeds declares what its methods call in place of fields. A redirected method has the
-- calls of its source, each once, as it was or with its parts redirected; every call besides stands
-- for a selector, on what the selector's base has become, and names what is declared on the entity of
-- the selector's field, or for the field's enumeration.
theorem inserted_calls_declared {schema : Schema} {settings : Settings} {methods : List FuncDecl}
    {g : Generated} (h : (ofSchema schema settings methods).result = .ok g) :
    ∃ redirected, Redirects schema settings methods redirected ∧
      (∀ f ∈ redirected, f.receiverEntity?.isSome → .func f ∈ g.declarations) ∧
      List.Forall₂ (fun f f' =>
        let catalog := (Catalog.build schema settings {}).value
        let visits := f.visits catalog ⟨methods⟩
        ∃ scope kept inserted, f.redirectScope catalog ⟨methods⟩ = .ok scope ∧
          let r : RedirectContext := ⟨f.name, scope, settings⟩
          callsAmong f.expand.body.accesses ≤ callsAmong f.body.accesses ∧
          Multiset.Rel (r.Retains visits) (callsAmong f.expand.body.accesses) kept ∧
          callsAmong f'.body.accesses = kept + inserted ∧
          ∀ c ∈ inserted, ∃ v ∈ visits, ∃ base info, v.OfField r catalog base info ∧
            v.BecomesCall r f'.body.statements base.expr info c ∧
            info.Declared settings g.declarations c) methods redirected := by
  obtain ⟨redirected, each, _, clean, rfl⟩ := redirects_of_ok h
  refine ⟨redirected, each, fun f' mem receiver => ?_, each.each.imp fun f f' redirects => ?_⟩
  · obtain ⟨entity, receiver⟩ := Option.isSome_iff_exists.1 receiver
    obtain ⟨f, _, redirects⟩ := exists_of_forall₂ each.each.flip mem
    obtain ⟨e, he, rfl⟩ := FuncDecl.exists_entity_of_redirect redirects receiver
    have own : f' ∈ redirected.filter (·.receiverEntity? = some e.name) :=
      List.mem_filter.2 ⟨mem, by simp [receiver]⟩
    exact Catalog.func_mem_declarationsFrom he
      (List.mem_append_left _ (List.mem_append_left _ own))
  · obtain ⟨scope, hs⟩ := FuncDecl.redirectScope_of_redirect redirects
    obtain ⟨kept, rel, inserted, same, all⟩ := FuncDecl.redirect_weaves hs redirects
    refine ⟨scope, kept, inserted, hs, Stmt.expandBlock_calls f.body, rel, same, fun c hc => ?_⟩
    obtain ⟨v, hv, base, info, ⟨value, resolved⟩, becomes⟩ := all c hc
    obtain ⟨proxied, type, entity, known, named, found⟩ := RedirectContext.field_of_resolve resolved
    rw [(FuncDecl.mem_redirectScope hs).1] at found
    obtain ⟨e, he, rfl, hi⟩ := Catalog.mem_of_field? found
    have own := (clean.built.fields e he).entity info hi
    exact ⟨v, hv, base, info, ⟨value, ⟨type, known, own ▸ named⟩, own ▸ found⟩, becomes,
      Catalog.declared_of_becomes clean.built found proxied becomes⟩

-- A method that only reads the note of an audit calls nothing in its source, so what it calls stands
-- for the selector and is declared on audits.
theorem inserted_calls_declared_note :
    let f := FuncDecl.notedPointer
    let note : Expr := .call .nowhere (.select .nowhere (.ident .nowhere "a") "Note") [] []
    let f' : FuncDecl := { f with body := .mk .nowhere [.ret .nowhere [note]] }
    ∃ g, (ofSchema FuncDecl.ledgerSchema .standard [f]).result = .ok g ∧
      Redirects FuncDecl.ledgerSchema .standard [f] [f'] ∧ .func f' ∈ g.declarations ∧
      ∃ scope, f.redirectScope FuncDecl.ledger ⟨[f]⟩ = .ok scope ∧
        let r : RedirectContext := ⟨f.name, scope, .standard⟩
        ∃ v ∈ f.visits FuncDecl.ledger ⟨[f]⟩, ∃ base info,
          v.OfField r FuncDecl.ledger base info ∧
          v.BecomesCall r f'.body.statements base.expr info note ∧
          info.Declared .standard g.declarations note := by
  intro f note f'
  have scope : f.redirectScope FuncDecl.ledger ⟨[f]⟩ = .ok ⟨FuncDecl.ledger, ["Order", "Audit"]⟩ :=
    FuncDecl.redirectScope_notedPointer
  have becomes : f.redirect FuncDecl.ledger ⟨[f]⟩ .standard = .ok f' := by
    rw [FuncDecl.redirect_eq, scope]
    rfl
  have each : Redirects FuncDecl.ledgerSchema .standard [f] [f'] := by
    rw [Redirects, FuncDecl.build_ledgerSchema, List.map_singleton, becomes]
    rfl
  have apart : Namespace.allCollisions Settings.standard.reserved
      ((Catalog.build FuncDecl.ledgerSchema .standard {}).value.entities.map
        (Namespace.ofEntity · [f])) = [] := by decide +kernel
  have ran := result_of_redirects each fun strict => by cases strict
  rw [if_pos apart, FuncDecl.build_ledgerSchema] at ran
  refine ⟨_, ran, each, ?_⟩
  obtain ⟨redirected, each', declared, woven⟩ := inserted_calls_declared ran
  obtain rfl := each'.unique each
  refine ⟨declared f' (List.mem_singleton_self _) rfl, ?_⟩
  rw [List.forall₂_cons, FuncDecl.build_ledgerSchema] at woven
  obtain ⟨opened, kept, inserted, hs, -, rel, same, all⟩ := woven.1
  obtain rfl := Multiset.rel_zero_left.1 rel
  rw [zero_add] at same
  exact ⟨opened, hs, all note (same ▸ Multiset.mem_singleton_self note)⟩

end Run

end FieldAccess
