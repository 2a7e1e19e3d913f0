import FieldAccess.Proofs.GraphAssignment
import FieldAccess.Proofs.PrimitiveEntities
import FieldAccess.Proofs.StatementSimulation

namespace FieldAccess

-- A method that uses its receiver for the fields of its entity, and for nothing else.
structure FuncDecl.FitsEntity (f : FuncDecl) (e : EntityFields) (receiver : Param) : Prop extends
    f.On e receiver where
  body : Stmt.listFits (e.usage receiver.name) f.body.statements

-- The body of a method runs, and the machine is as it should be all along.
def Program.RunsWatched (p : Program) (rounds : Nat) (holds : Machine → Bool) (f : FuncDecl)
    (receiver : Value) (args : List Value) (m : Machine) : Prop :=
  holds m = true ∧ ∃ r m₁,
    Step.sequence (Step.watchedSteps p (p.invoke rounds 255) rounds holds f.body.statements)
      (.ofTable (parameters f (some receiver) args)) m = .ok r m₁

theorem FuncDecl.body_expand (f : FuncDecl) :
    f.expand.body = .mk f.body.span (Stmt.expandList f.body.statements) := by
  rw [expand]
  cases f.body
  rfl

-- What the redirection of a method consists of.
theorem FuncDecl.ok_redirect {f f' : FuncDecl} {catalog : Catalog} {methods : MethodTable}
    {settings : Settings} (h : f.redirect catalog methods settings = .ok f') :
    ∃ scope out temps, f.redirectScope catalog methods = .ok scope ∧
      RedirectContext.stmts ⟨f.name, scope, settings⟩ (TypeContext.ofMethod catalog methods f.expand)
        (Stmt.expandList f.body.statements) (.ofMethod f.expand) = .ok (out, temps) ∧
      f' = { f with body := .mk f.body.span out } := by
  rw [redirect_eq] at h
  obtain ⟨scope, known, h⟩ := ok_bind.1 h
  obtain ⟨⟨_, temps⟩, run, h⟩ := ok_bind.1 h
  obtain rfl := ok_pure.1 h
  rw [StateT.run, f.body_expand, RedirectContext.block] at run
  obtain ⟨out, _, emitted, ends⟩ := Redirecting.ok_bind.1 run
  obtain ⟨rfl, rfl⟩ := Redirecting.ok_pure.1 ends
  exact ⟨scope, out, _, known, emitted, rfl⟩

-- The body of the method does on the wrapper what it did on the object.
theorem Run.body_simulates {schema : Schema} {methods : List FuncDecl} {g : Generated}
    {e : EntityFields} {f : FuncDecl} {param : Param} {table : MethodTable} {scope : RedirectScope}
    {out : List Stmt} {temps : Temporaries} {source : Program}
    (ok : (Run.ofSchema schema .standard methods).result = .ok g)
    (primitive : (Catalog.build schema .standard {}).value.Primitive e)
    (undefined : ∀ name, source.underlying? name = none) (fits : f.FitsEntity e param)
    (known : f.redirectScope (Catalog.build schema .standard {}).value table = .ok scope)
    (emitted : RedirectContext.stmts ⟨f.name, scope, .standard⟩
      (TypeContext.ofMethod (Catalog.build schema .standard {}).value table f.expand)
      (Stmt.expandList f.body.statements) (.ofMethod f.expand) = .ok (out, temps))
    (call : CallHandler) (rounds o w r : Nat) :
    let S := e.sides (Catalog.build schema .standard {}).value source g.program rounds param.name o w r
    Step.Simulates S f.expand.names []
      (Step.sequence (Step.watchedSteps source call rounds (e.inKind o) f.body.statements))
      (Step.sequence (Step.steps S.target S.call rounds out)) (Flow.Alike S) := by
  intro S
  refine RedirectContext.stmts_simulate (S := S)
    ((EntityFields.sides_ofRun primitive ok rfl undefined).sound ok)
    (fun m h => EntityFields.inKind_sides primitive h) f.body.statements fits.body ?_
    (EntityFields.usage_agrees primitive fits.toOn known f.expand.names)
      (List.subset_append_right ..) emitted
  rw [FuncDecl.names, f.body_expand]
  exact List.subset_append_right ..

-- Whether statements ran to their end.
def Flow.goesOn : Flow → Bool
  | .next => true
  | _ => false

-- What a call answers, by how the body ends.
def Flow.answer : Flow → List Value
  | .returns vs => vs
  | _ => []

theorem Flow.Alike.answer {S : Sides} {maps : List (Nat × Nat)} {flow flow' : Flow}
    (h : flow.Alike S maps flow') :
    List.Forall₂ (Value.Alike S.loose maps) flow.answer flow'.answer := by
  cases h with
  | returns hs => exact hs
  | _ => exact .nil

theorem Program.ok_invoke_succ {p : Program} {rounds depth : Nat} {f : FuncDecl}
    {receiver : Option Value} {args vs : List Value} {m m₁ : Machine} :
    p.invoke rounds (depth + 1) f receiver args m = .ok vs m₁ ↔
      args.length = f.params.length ∧ ∃ flow fr,
        Step.sequence (Step.steps p (p.invoke rounds depth) rounds f.body.statements)
          (.ofTable (parameters f receiver args)) m = .ok (flow, fr) m₁ ∧ flow.answer = vs := by
  by_cases count : args.length = f.params.length
  · rw [invoke_succ count, Step.answers, Exec.ok_bind]
    refine ⟨?_, ?_⟩
    · rintro ⟨⟨flow, fr⟩, m₂, run, ends⟩
      refine ⟨count, flow, fr, ?_⟩
      cases flow <;> (obtain ⟨rfl, rfl⟩ := Exec.ok_pure.1 ends; exact ⟨run, rfl⟩)
    · rintro ⟨-, flow, fr, run, rfl⟩
      refine ⟨_, _, run, ?_⟩
      cases flow <;> rfl
  · rw [invoke, if_pos count]
    exact ⟨fun h => (Exec.ok_fail.1 h).elim, fun h => absurd h.1 count⟩

-- Where a call on a plain object ends, the redirected one ends alike.
theorem Run.method_behaves_alike {schema : Schema} {f : FuncDecl} {g : Generated} {e : EntityFields}
    {param : Param} {o w r rounds : Nat} {m m₁ m' : Machine} {args vs : List Value}
    (ok : (Run.ofSchema schema .standard [f]).result = .ok g)
    (primitive : (Catalog.build schema .standard {}).value.Primitive e) (fits : f.FitsEntity e param)
    (type : (m.object o).type = e.name) (agree : e.Agree o w r m m')
    (globals : m.globals = .empty) (globals' : m'.globals = .empty)
    (arguments : ∀ v ∈ args, v.IsArgument)
    (kinds : (⟨[.func f]⟩ : Program).RunsWatched rounds (e.inKind o) f (.object o) args m)
    (run : (⟨[.func f]⟩ : Program).callMethod rounds (.object o) f.name args m = .ok vs m₁) :
    ∃ vs' m'₁ maps, g.program.callMethod rounds (.object w) f.name args m' = .ok vs' m'₁ ∧
      List.Forall₂ (Value.Alike [] maps) vs vs' ∧ MapsAlike [] maps m₁ m'₁ ∧ e.Agree o w r m₁ m'₁ := by
  obtain ⟨redirected, redirects, -, clean, rfl⟩ := Run.redirects_of_ok ok
  obtain ⟨f', rfl, redirect⟩ : ∃ f', redirected = [f'] ∧
      f.redirect (Catalog.build schema .standard {}).value ⟨[f]⟩ .standard = .ok f' := by
    cases redirects.each with
    | cons head tail =>
      cases tail
      exact ⟨_, rfl, head⟩
  obtain ⟨scope, out, temps, known, emitted, rfl⟩ := FuncDecl.ok_redirect redirect
  have method : (⟨[.func f]⟩ : Program).method? e.name f.name = some f := by
    simp [Program.method?, Program.last?, Decl.func?, fits.entity]
  rw [Program.callMethod, Exec.callMethod_object, type, method] at run
  obtain ⟨count, flow, fr, ran, rfl⟩ := Program.ok_invoke_succ.1 run
  obtain ⟨initial, ⟨ended, _⟩, _, watched⟩ := kinds
  have stops := (Step.MayStop.sequence (Step.watchedSteps_mayStop _ _ _ _ _)).run watched
  obtain ⟨same, rfl⟩ := EStateM.Result.ok.inj (stops.symm.trans ran)
  obtain ⟨rfl, rfl⟩ := Prod.mk.inj same
  obtain ⟨maps, flow', fr', m'₁, -, run', sync, alike⟩ :=
    (Run.body_simulates ok primitive (Program.underlying?_func f) fits known emitted _ rounds o w r).run
      (List.nil_subset _)
      (EntityFields.agree_sync primitive agree initial globals globals' fits.toOn ⟨rfl, rfl⟩
        arguments _) watched
  refine ⟨flow'.answer, m'₁, maps, ?_, alike.answer, sync.tables,
    EntityFields.states_agree primitive clean.built sync.toStates sync.inKind⟩
  have mem : { f with body := .mk f.body.span out } ∈
      e.functions .standard [{ f with body := .mk f.body.span out }] := by
    refine List.mem_append_left _ (List.mem_append_left _
      (List.mem_filter.2 ⟨List.mem_singleton_self _, ?_⟩))
    exact decide_eq_true fits.entity
  refine (clean.callMethod_function primitive.mem mem agree.wraps).trans ?_
  exact Program.ok_invoke_succ.2 ⟨count, flow', fr', run', rfl⟩

theorem Program.RunsWatched.of_endsWith {p : Program} {rounds : Nat} {holds : Machine → Bool}
    {f : FuncDecl} {receiver : Value} {args : List Value} {m : Machine} (initial : holds m = true)
    (h : Exec.endsWith (Step.sequence (Step.watchedSteps p (p.invoke rounds 255) rounds holds
      f.body.statements) (.ofTable (parameters f (some receiver) args))) m (fun _ _ => true) = true) :
    p.RunsWatched rounds holds f receiver args m := by
  obtain ⟨r, m₁, run, -⟩ := Exec.exists_of_endsWith h
  exact ⟨initial, r, m₁, run⟩

-- The method that goes through its list with `for _, o.total = range xs`, and returns from there with
-- `if o.flag = o.total > 1; o.flag { return o.total }`.
def orderLast : FuncDecl :=
  let total := flaggedField "total"
  let flag := flaggedField "flag"
  flaggedMethod "Last"
    [.range .nowhere (some (.ident .nowhere "_")) (some total) false (.ident .nowhere "xs")
      (.mk .nowhere
        [.ifElse .nowhere
          (some (.assign .nowhere [flag] .assign
            [.binary .nowhere .gt total (.literal .nowhere (.int 1))]))
          flag (.mk .nowhere [.ret .nowhere [total]]) none])]

-- The loop ends with the first number above 1, which it leaves in the total.
theorem Run.method_behaves_alike_last :
    let xs : Value := .slice [.int 1, .int 2, .int 3]
    ∃ g m₁ m'₁, (Run.ofSchema flaggedSchema .standard [orderLast]).result = .ok g ∧
      (⟨[.func orderLast]⟩ : Program).callMethod 9 (.object 0) "Last" [xs] (flaggedObject 0 false) =
        .ok [.int 2] m₁ ∧
      g.program.callMethod 9 (.object 0) "Last" [xs] (flaggedRecord 0 false) = .ok [.int 2] m'₁ ∧
      flaggedOrder.Agree 0 0 0 m₁ m'₁ := by
  intro xs
  have scope : orderLast.redirectScope ⟨[flaggedOrder]⟩ ⟨[orderLast]⟩ =
      .ok ⟨⟨[flaggedOrder]⟩, ["Order"]⟩ := flaggedOrder_primitive.redirectScope_eq rfl _
  obtain ⟨g, ok⟩ := Run.exists_ok_of_scope (build_flaggedSchema ▸ scope) (by decide +kernel)
    (by decide +kernel)
  have field (name : String) (found : (flaggedOrder.field? name).isSome) :
      (flaggedField name).Fits (flaggedOrder.usage "o") := .inl ⟨"o", rfl, rfl, found⟩
  have total := field "total" (by decide)
  have flag := field "flag" (by decide)
  have fits : orderLast.FitsEntity flaggedOrder ⟨"o", .pointer (.named "Order")⟩ := by
    refine ⟨⟨rfl, rfl, by decide, by decide⟩, ⟨⟨?_, ?_⟩, by simp [Expr.Fits, EntityFields.usage],
      ⟨?_, flag, ⟨List.forall_mem_singleton.2 total, trivial⟩, trivial⟩, trivial⟩, trivial⟩
    · rintro _ ⟨⟩
      simp [Usage.Binds, Expr.Fits, EntityFields.usage]
    · rintro _ ⟨⟩
      exact total
    · rintro _ ⟨⟩
      have written : (flaggedField "flag").IsField (flaggedOrder.usage "o") :=
        ⟨"o", rfl, rfl, by decide⟩
      exact ⟨by simp [Expr.Fits, flag, total], .inr (List.forall_mem_singleton.2 (.inl written)),
        fun _ => .inl (by decide)⟩
  have answers : ((⟨[.func orderLast]⟩ : Program).callMethod 9 (.object 0) "Last" [xs]).endsWith
      (flaggedObject 0 false) (fun vs _ => vs.map (·.key?) = [some (.int 2)]) = true := by
    decide
  obtain ⟨vs, m₁, run, ends⟩ := Exec.exists_of_endsWith answers
  obtain rfl := Value.eq_of_keys (of_decide_eq_true ends)
  have kinds : (⟨[.func orderLast]⟩ : Program).RunsWatched 9 (flaggedOrder.inKind 0) orderLast
      (.object 0) [xs] (flaggedObject 0 false) := .of_endsWith (by decide +kernel) (by decide +kernel)
  have arguments : ∀ v ∈ [xs], v.IsArgument := by
    refine List.forall_mem_singleton.2 (.slice ?_)
    simp [Value.IsArgument.int]
  obtain ⟨vs', m'₁, maps, run', alike, -, agree⟩ := Run.method_behaves_alike ok
    (build_flaggedSchema ▸ flaggedOrder_primitive) fits rfl (flaggedOrder_agree 0 false) rfl rfl
      arguments
    kinds run
  cases alike with
  | cons head tail =>
    cases tail
    cases head
    exact ⟨g, m₁, m'₁, ok, run, run', agree⟩

-- A method that leaves other fields in a wrapper than in the object for which it stands.
def FuncDecl.ActsApart (f : FuncDecl) (args : List Value) : Prop :=
  ∃ g m₁ m'₁, (Run.ofSchema flaggedSchema .standard [f]).result = .ok g ∧
    (⟨[.func f]⟩ : Program).RunsWatched 9 (flaggedOrder.inKind 0) f (.object 0) args
      (flaggedObject 0 false) ∧
    (⟨[.func f]⟩ : Program).callMethod 9 (.object 0) f.name args (flaggedObject 0 false) = .ok [] m₁ ∧
    g.program.callMethod 9 (.object 0) f.name args (flaggedRecord 0 false) = .ok [] m'₁ ∧
    ¬flaggedOrder.Agree 0 0 0 m₁ m'₁

-- What is generated for one method of orders.
def flaggedGenerated (f : FuncDecl) : Generated where
  declarations := Catalog.declarations ⟨[flaggedOrder]⟩ (Catalog.build flaggedSchema .standard {}).enums
    .standard [f]
  enums := (Catalog.build flaggedSchema .standard {}).enums.entries

-- It is seen by running both, and looking at one of the fields.
theorem FuncDecl.ActsApart.of_runs {f : FuncDecl} {args : List Value} (info : FieldInfo)
    (wanted got : MapKey) (own : f.receiverEntity? = some "Order")
    (apart : Namespace.allCollisions Settings.standard.reserved
      ((Catalog.build flaggedSchema .standard {}).value.entities.map (Namespace.ofEntity · [f])) = [])
    (kinds : (⟨[.func f]⟩ : Program).RunsWatched 9 (flaggedOrder.inKind 0) f (.object 0) args
      (flaggedObject 0 false)) (mem : info ∈ flaggedOrder.fields) (ne : wanted ≠ got)
    (runs : ((⟨[.func f]⟩ : Program).callMethod 9 (.object 0) f.name args).endsWith
      (flaggedObject 0 false) (fun vs m =>
        vs.isEmpty && ((m.object 0).fields.get? info.name).bind (·.key?) = some wanted) = true)
    (redirected : (f.expand.redirectIn .standard (TypeContext.ofMethod ⟨[flaggedOrder]⟩ ⟨[f]⟩ f.expand)
      ⟨⟨[flaggedOrder]⟩, ["Order"]⟩).toOption.any (fun f' =>
        ((flaggedGenerated f').program.callMethod 9 (.object 0) f.name args).endsWith
          (flaggedRecord 0 false) fun vs m =>
            vs.isEmpty && ((m.record 0).data.get? info.key).bind (·.key?) = some got) = true) :
    f.ActsApart args := by
  obtain ⟨f', emitted, stores⟩ := exists_ok_of redirected
  have redirects : Run.Redirects flaggedSchema .standard [f] [f'] := by
    rw [Run.Redirects, List.map_singleton, build_flaggedSchema, FuncDecl.redirect_eq,
      flaggedOrder_primitive.redirectScope_eq own]
    exact congrArg (fun r => [r]) emitted
  have ran := Run.result_of_redirects redirects fun strict => by cases strict
  rw [if_pos apart, build_flaggedSchema] at ran
  obtain ⟨vs, m₁, run, ends⟩ := Exec.exists_of_endsWith runs
  obtain ⟨vs', m'₁, run', ends'⟩ := Exec.exists_of_endsWith stores
  simp only [Bool.and_eq_true, decide_eq_true_eq, List.isEmpty_iff] at ends ends'
  obtain ⟨rfl, held⟩ := ends
  obtain ⟨rfl, held'⟩ := ends'
  refine ⟨_, m₁, m'₁, ran, kinds, run, run', fun agree => ne (Option.some.inj ?_)⟩
  rw [← held, ← held', agree.fields info mem]

-- In `o.flag, xs[0] = xs[0] == 1, 2`, the comparison is taken for a constant and stays where the
-- mutator is called, after the element has been written.
theorem Run.comparison_after_element_written :
    let first : Expr := .index .nowhere (.ident .nowhere "xs") (.literal .nowhere (.int 0))
    let f := flaggedMethod "F"
      [.assign .nowhere [flaggedField "flag", first] .assign
        [.binary .nowhere .eq first (.literal .nowhere (.int 1)), .literal .nowhere (.int 2)]]
    f.ActsApart [.slice [.int 1]] := by
  intro first f
  exact .of_runs (flaggedOrder.fields.getLast (by decide)) (.bool true) (.bool false)
    rfl (by decide +kernel) (.of_endsWith (by decide +kernel) (by decide +kernel))
      (List.getLast_mem _) (by decide)
    (by decide +kernel) (by decide +kernel)

end FieldAccess
