import FieldAccess.Proofs.SettledBodies

namespace FieldAccess

namespace Stmt

mutual

-- What is written out holds no shorthands any more.
theorem expand_expand : (s : Stmt) → s.expand.expand = s.expand
  | .assign span targets (.compound op) values => by
    by_cases repeatable : areRepeatable targets = true
    · rw [expand, if_pos repeatable]
      rfl
    · rw [expand, if_neg repeatable, expand, if_neg repeatable]
  | .step span target increment => by
    by_cases free : target.isCallFree = true
    · rw [expand, if_pos free]
      rfl
    · rw [expand, if_neg free, expand, if_neg free]
  | .block body => congrArg Stmt.block (expandBlock_expand body)
  | .ifElse span init cond body orElse => by
    simp only [expand, expandOption_expand init, expandBlock_expand body, expandOption_expand orElse]
  | .forLoop span init cond post body => by
    simp only [expand, expandOption_expand init, expandOption_expand post, expandBlock_expand body]
  | .range span key value define iterable body => by
    simp only [expand, expandBlock_expand body]
  | .switch span init tag cases => by
    simp only [expand, expandOption_expand init, expandCases_expand cases]
  | .assign _ _ .assign _ | .assign _ _ .define _ | .empty _ | .breakLoop _ | .continueLoop _
  | .expr _ | .var _ _ _ _ | .ret _ _ => rfl
termination_by structural s => s

theorem expandOption_expand : (s : Option Stmt) → expandOption (expandOption s) = expandOption s
  | none => rfl
  | some s => congrArg some (expand_expand s)
termination_by structural s => s

theorem expandBlock_expand : (b : Block) → expandBlock (expandBlock b) = expandBlock b
  | .mk span statements => congrArg (Block.mk span) (expandList_expand statements)
termination_by structural b => b

theorem expandList_expand : (ss : List Stmt) → expandList (expandList ss) = expandList ss
  | [] => rfl
  | s :: rest => by simp only [expandList, expand_expand s, expandList_expand rest]
termination_by structural ss => ss

theorem expandCases_expand : (cs : List Case) → expandCases (expandCases cs) = expandCases cs
  | [] => rfl
  | .mk _ values body :: rest => by
    simp only [expandCases, expandList_expand body, expandCases_expand rest]
termination_by structural cs => cs

end

end Stmt

-- The names that redirection inserts mean nothing else: no field is called like an accessor or a
-- mutator, no two fields have one accessor, no method is called like a field of its entity, and no
-- entity like the type of a variable that starts with a constant.
structure Catalog.NamesApart (c : Catalog) (methods : List FuncDecl) : Prop where
  fields : ∀ e ∈ c.entities, ∀ info ∈ e.fields,
    e.field? info.accessor = none ∧ e.field? info.mutator = none
  accessors : ∀ e ∈ c.entities, (e.fields.map (·.accessor)).Nodup
  methods : ∀ e ∈ c.entities, ∀ f ∈ methods, f.receiverEntity? = some e.name → e.field? f.name = none
  basic : ∀ entity ∈ ["int", "float64", "string", "bool"], c.entity? entity = none

namespace MethodTable

theorem get?_eq_none_iff {methods : List FuncDecl} {entity name : String} :
    (MethodTable.mk methods).get? entity name = none ↔
      ∀ f ∈ methods, f.receiverEntity? = some entity → f.name ≠ name := by
  simp [get?]

end MethodTable

-- A run finds no accessor among the methods of an entity.
theorem Namespace.accessor_ne_method {e : EntityFields} {methods : List FuncDecl}
    {reserved : List String} (none : (Namespace.ofEntity e methods).collisions reserved = [])
    {info : FieldInfo} (mem : info ∈ e.fields) (proxied : info.isProxied) {f : FuncDecl}
    (hf : f ∈ methods) (on : f.receiverEntity? = some e.name) : f.name ≠ info.accessor := by
  obtain ⟨_, _, distinct⟩ := Namespace.collisions_eq_nil_iff.1 none
  rw [ofEntity, List.map_append] at distinct
  intro same
  refine (List.nodup_append.1 distinct).2.2 info.accessor ?_ f.name ?_ same.symm
  · rw [List.map_append]
    refine List.mem_append_left _ (List.mem_map.2 ⟨⟨info.accessor, .accessor info.name,
      info.field.span⟩, List.mem_flatMap.2 ⟨info, mem, ?_⟩, rfl⟩)
    simp [ofField, proxied]
  · exact List.mem_map.2 ⟨_, List.mem_map_of_mem (List.mem_filter.2 ⟨hf, by simpa using on⟩), rfl⟩

theorem Catalog.NamesApart.unmistakable {c : Catalog} {methods : List FuncDecl}
    (apart : c.NamesApart methods) {reserved : List String}
    (clear : ∀ e ∈ c.entities, (Namespace.ofEntity e methods).collisions reserved = [])
    {types : TypeContext} (hc : types.catalog = c) (ht : types.methods = ⟨methods⟩) :
    types.Unmistakable := by
  subst hc
  have found {entity member : String} {info : FieldInfo}
      (h : types.catalog.field? entity member = some info) :
      ∃ e ∈ types.catalog.entities, types.catalog.entity? entity = some e ∧ e.name = entity ∧
        info ∈ e.fields ∧ info.name = member := by
    obtain ⟨e, he, hf⟩ := Option.bind_eq_some_iff.1 h
    exact ⟨e, mem_of_entity? he, he, name_of_entity? he, List.mem_of_find?_eq_some hf,
      by simpa using List.find?_some hf⟩
  have undeclared {entity member : String} {info : FieldInfo}
      (h : types.catalog.field? entity member = some info) (proxied : info.isProxied) :
      types.methods.get? entity member = none ∧ types.methods.get? entity info.accessor = none := by
    obtain ⟨e, he, _, rfl, mem, rfl⟩ := found h
    rw [ht, MethodTable.get?_eq_none_iff, MethodTable.get?_eq_none_iff]
    refine ⟨fun f hf on same => ?_, fun f hf on =>
      Namespace.accessor_ne_method (clear e he) mem proxied hf on⟩
    have none := apart.methods e he f hf on
    rw [same] at none
    exact List.find?_eq_none.1 none info mem (by simp)
  have fieldless {entity member : String} {info : FieldInfo}
      (h : types.catalog.field? entity member = some info) :
      types.catalog.field? entity info.accessor = none ∧
        types.catalog.field? entity info.mutator = none := by
    obtain ⟨e, he, known, _, mem, _⟩ := found h
    simpa [Catalog.field?, known] using apart.fields e he info mem
  refine ⟨fun h _ => (fieldless h).1, fun h _ => (fieldless h).2, fun {_ _ info} h proxied => ?_,
    fun {_ _ info} h proxied => ?_, undeclared, apart.basic⟩
  · obtain ⟨e, he, known, _, mem, _⟩ := found h
    have first : e.fields.find? (·.accessor = info.accessor) = some info := by
      cases hf : e.fields.find? (·.accessor = info.accessor) with
      | none => exact absurd (List.find?_eq_none.1 hf info mem) (by simp)
      | some other =>
        exact congrArg some (List.inj_on_of_nodup_map (apart.accessors e he)
          (List.mem_of_find?_eq_some hf) mem (by simpa using List.find?_some hf))
    simp [TypeContext.memberResult?, MethodTable.resultType?, (undeclared h proxied).2, known, first]
  · obtain ⟨e, he, known, _, mem, rfl⟩ := found h
    have none : e.fields.find? (·.accessor = info.name) = none := by
      refine List.find?_eq_none.2 fun other hother same => ?_
      have none := (apart.fields e he other hother).1
      rw [show other.accessor = info.name by simpa using same] at none
      exact List.find?_eq_none.1 none info mem (by simp)
    simp [TypeContext.memberResult?, MethodTable.resultType?, (undeclared h proxied).1, known, none]

namespace FuncDecl

variable {f g : FuncDecl} {catalog : Catalog} {methods methods' : List FuncDecl} {settings : Settings}

-- Tables with the same headers know the same of a method's results.
theorem results_of_headers (h : List.Forall₂ (fun f g => g = { f with body := g.body }) methods methods')
    (entity name : String) :
    ((MethodTable.mk methods').get? entity name).map (·.results) =
      ((MethodTable.mk methods).get? entity name).map (·.results) := by
  have same := List.forall₂_reverse_iff.2 h
  rw [MethodTable.get?, MethodTable.get?]
  generalize methods.reverse = fs, methods'.reverse = gs at same ⊢
  induction same with
  | nil => rfl
  | @cons f g _ _ head _ ih =>
    have receiver : g.receiverEntity? = f.receiverEntity? := by rw [head]; rfl
    have named : g.name = f.name := by rw [head]
    have results : g.results = f.results := by rw [head]
    rw [List.find?_cons, List.find?_cons, receiver, named]
    split
    · exact congrArg some results
    · exact ih

theorem redirect_again (once : f.redirect catalog ⟨methods⟩ settings = .ok g)
    (headers : List.Forall₂ (fun f g => g = { f with body := g.body }) methods methods')
    (sure : (TypeContext.ofMethod catalog ⟨methods⟩ f.expand).Unmistakable)
    (unhidden : Stmt.blockUnhidden f.expand.body)
    (touched : ∀ entity, g.Touches catalog ⟨methods'⟩ entity → f.Touches catalog ⟨methods⟩ entity) :
    g.redirect catalog ⟨methods'⟩ settings = .ok g := by
  rw [redirect_eq] at once ⊢
  obtain ⟨scope, hs, hg⟩ := ok_bind.1 once
  simp only [redirectIn, ok_bind, ok_pure] at hg
  obtain ⟨⟨body, temps⟩, hbody, rfl⟩ := hg
  obtain ⟨scope', hs'⟩ : ∃ scope', redirectScope { f.expand with body } catalog ⟨methods'⟩ =
      .ok scope' := by
    obtain ⟨start, hstart, _⟩ := ok_bind.1 hs
    exact ⟨_, ok_bind.2 ⟨start, hstart, rfl⟩⟩
  obtain ⟨outer, inScope⟩ := mem_redirectScope hs
  obtain ⟨inner, inScope'⟩ := mem_redirectScope hs'
  rcases hss : f.expand.body with ⟨span, ss⟩
  rw [hss] at hbody unhidden
  simp only [RedirectContext.block, StateT.run, Redirecting.ok_bind, Redirecting.ok_pure] at hbody
  obtain ⟨out, _, hout, rfl, rfl⟩ := hbody
  have expanded : Stmt.expandList ss = ss := by
    have twice := Stmt.expandBlock_expand f.body
    rw [show Stmt.expandBlock f.body = .mk span ss from hss] at twice
    injection twice
  have meets : RedirectContext.Meets ⟨f.expand.name, scope, settings⟩ ⟨f.expand.name, scope', settings⟩
      (namesOfStmts ss) (TypeContext.ofMethod catalog ⟨methods⟩ f.expand)
      (TypeContext.ofMethod catalog ⟨methods'⟩ f.expand) (.ofMethod f.expand) := by
    refine ⟨⟨?_, ?_, fun entity mem => ?_⟩, sure, ?_, ?_⟩
    · rw [TypeContext.ofMethod_catalog]
      exact outer
    · rw [TypeContext.ofMethod_catalog]
      exact inner
    · exact (inScope entity).2 (touched entity ((inScope' entity).1 mem))
    · have start : TypeContext.Agrees (namesOfStmts ss) ⟨catalog, ⟨methods⟩, []⟩
          ⟨catalog, ⟨methods'⟩, []⟩ := ⟨rfl, results_of_headers headers, fun _ _ => rfl⟩
      exact start.bindAll _
    · have used : f.expand.body.names = namesOfStmts ss := by rw [hss, Block.names]
      rw [← used]
      exact List.subset_append_of_subset_right _ (List.subset_append_right _ _)
  have walked := RedirectContext.stmts_walked ss meets (List.Subset.refl _) expanded unhidden hout
  have again : FuncDecl.expand { f.expand with body := .mk span out } =
      { f.expand with body := .mk span out } := by
    rw [FuncDecl.expand, Block.expand, Stmt.expandBlock, walked.settles.expandList]
  refine ok_bind.2 ⟨scope', hs', ?_⟩
  rw [again]
  simp only [redirectIn, ok_bind, ok_pure]
  exact ⟨_, walked.settles.block _, rfl⟩

end FuncDecl

namespace Run

variable {schema : Schema} {settings : Settings} {methods redirected : List FuncDecl} {g : Generated}

-- Redirection leaves what is redirected as it is, if the names that it inserts mean nothing else, no
-- name is hidden where a statement moves to, and the results touch no other entities.
theorem redirected_again (once : Redirects schema settings methods redirected)
    (ran : (ofSchema schema settings methods).result = .ok g)
    (apart : (Catalog.build schema settings {}).value.NamesApart methods)
    (unhidden : ∀ f ∈ methods, Stmt.blockUnhidden f.expand.body)
    (touched : List.Forall₂ (fun f f' => ∀ entity,
      f'.Touches (Catalog.build schema settings {}).value ⟨redirected⟩ entity →
        f.Touches (Catalog.build schema settings {}).value ⟨methods⟩ entity) methods redirected) :
    Redirects schema settings redirected redirected := by
  have clear : ∀ e ∈ (Catalog.build schema settings {}).value.entities,
      (Namespace.ofEntity e methods).collisions settings.reserved = [] := by
    obtain ⟨redirected', once', _, clean, _⟩ := redirects_of_ok ran
    exact fun e he => (once'.collisions e).1 (clean.apart e he)
  have headers := once.each.imp fun _ _ h => FuncDecl.redirect_header h
  refine List.map_congr_left fun f' hf' => ?_
  obtain ⟨f, hf, becomes, touches⟩ := exists_of_forall₂
    (List.Forall₂.mp (fun _ _ h h' => And.intro h h') once.each touched).flip hf'
  exact FuncDecl.redirect_again becomes headers
    (apart.unmistakable clear (TypeContext.ofMethod_catalog ..) (TypeContext.bindAll_methods ..))
    (unhidden f hf) touches

theorem redirected_again_total :
    let schema : Schema := ⟨[{ name := "Order", fields := [{ name := "total", type := "int" }] }]⟩
    let o : Expr := .ident .nowhere "o"
    let f (value : Expr) : FuncDecl :=
      ⟨none, some ⟨"o", .pointer (.named "Order")⟩, "F", [], [], [.int],
        ⟨.nowhere, [.ret .nowhere [value]]⟩, .nowhere⟩
    let before := f (.select .nowhere o "total")
    let after := f (.call .nowhere (.select .nowhere o "Total") [] [])
    Redirects schema .standard [before] [after] ∧ Redirects schema .standard [after] [after] := by
  intro schema o f before after
  let e : EntityFields :=
    ⟨{ name := "Order", fields := [{ name := "total", type := "int" }] },
      [⟨"Order", { name := "total", type := "int" }, .proxied (.primitive "int" "GetInt")⟩]⟩
  have catalog : (Catalog.build schema .standard {}).value = ⟨[e]⟩ := by decide +kernel
  have scope (value : Expr) : (f value).redirectScope ⟨[e]⟩ ⟨[f value]⟩ = .ok ⟨⟨[e]⟩, ["Order"]⟩ :=
    FuncDecl.redirectScope_isolated (e := e) rfl rfl fun _ mem => List.mem_singleton.1 mem
  have once : Redirects schema .standard [before] [after] := by
    rw [Redirects, List.map_singleton, catalog, FuncDecl.redirect_eq, scope]
    rfl
  have clear : Namespace.allCollisions Settings.standard.reserved
      ((Catalog.build schema .standard {}).value.entities.map (Namespace.ofEntity · [before])) =
        [] := by decide +kernel
  have ran := result_of_redirects once fun strict => by cases strict
  rw [if_pos clear] at ran
  have apart : (Catalog.build schema .standard {}).value.NamesApart [before] := by
    rw [catalog]
    exact ⟨by decide, by decide, by decide, by decide⟩
  have unhidden : ∀ f ∈ [before], Stmt.blockUnhidden f.expand.body := fun _ mem => by
    rw [List.mem_singleton.1 mem]
    exact ⟨trivial, trivial⟩
  refine ⟨once, redirected_again once ran apart unhidden ?_⟩
  rw [catalog]
  refine .cons (fun entity touches => ?_) .nil
  exact ((FuncDecl.mem_redirectScope (scope _)).2 entity).1
    (((FuncDecl.mem_redirectScope (scope _)).2 entity).2 touches)

-- A field that is called like its own accessor: the call of the accessor is a selector of the field
-- again, and is redirected once more.
theorem redirected_again_called_like_accessor :
    let schema : Schema := ⟨[{ name := "Order", fields := [{ name := "Total", type := "int" }] }]⟩
    let o : Expr := .ident .nowhere "o"
    let f (value : Expr) : FuncDecl :=
      ⟨none, some ⟨"o", .pointer (.named "Order")⟩, "F", [], [], [.int],
        ⟨.nowhere, [.ret .nowhere [value]]⟩, .nowhere⟩
    let field : Expr := .select .nowhere o "Total"
    let call (callee : Expr) : Expr := .call .nowhere callee [] []
    (∃ g, (ofSchema schema .standard [f field]).result = .ok g) ∧
      Redirects schema .standard [f field] [f (call field)] ∧
      Redirects schema .standard [f (call field)] [f (call (call field))] := by
  intro schema o f field call
  let e : EntityFields :=
    ⟨{ name := "Order", fields := [{ name := "Total", type := "int" }] },
      [⟨"Order", { name := "Total", type := "int" }, .proxied (.primitive "int" "GetInt")⟩]⟩
  have catalog : (Catalog.build schema .standard {}).value = ⟨[e]⟩ := by decide +kernel
  have scope (value : Expr) : (f value).redirectScope ⟨[e]⟩ ⟨[f value]⟩ = .ok ⟨⟨[e]⟩, ["Order"]⟩ :=
    FuncDecl.redirectScope_isolated (e := e) rfl rfl fun _ mem => List.mem_singleton.1 mem
  have once : Redirects schema .standard [f field] [f (call field)] := by
    rw [Redirects, List.map_singleton, catalog, FuncDecl.redirect_eq, scope]
    rfl
  have twice : Redirects schema .standard [f (call field)] [f (call (call field))] := by
    rw [Redirects, List.map_singleton, catalog, FuncDecl.redirect_eq, scope]
    rfl
  have apart : Namespace.allCollisions Settings.standard.reserved
      ((Catalog.build schema .standard {}).value.entities.map (Namespace.ofEntity · [f field])) =
        [] := by decide +kernel
  have ran := result_of_redirects once fun strict => by cases strict
  rw [if_pos apart] at ran
  exact ⟨⟨_, ran⟩, once, twice⟩

end Run

end FieldAccess
