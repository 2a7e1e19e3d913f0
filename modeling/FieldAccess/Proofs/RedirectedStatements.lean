import FieldAccess.Proofs.MethodSimulation

namespace FieldAccess

-- A value that is taken for a constant, though it reads variables, is evaluated in the call of a
-- mutator. If it is for a field, it reads no variable that the assignment writes.
def RedirectContext.ReadsNoTarget (r : RedirectContext) (c : TypeContext) (targets : List Expr)
    (target value : Expr) : Prop :=
  ∀ t v, r.target c target = .ok t → r.value c value = .ok v → t.isField = true → v.isConstant = true →
    ∀ e ∈ targets, ∀ x, e.unparen.ident? = some x → x ∉ value.names

theorem RedirectContext.ReadsNoTarget.of_isConstant {r : RedirectContext} {c : TypeContext}
    {targets : List Expr} {target value : Expr}
    (h : (r.value c value).toOption.any (·.isConstant) = false) :
    r.ReadsNoTarget c targets target value := by
  intro t v _ hv _ constant
  rw [hv] at h
  exact absurd constant (Bool.eq_false_iff.1 h)

-- The variables that a plan writes are targets of the assignment.
theorem exists_of_planWritten {r : RedirectContext} {c : TypeContext} {targets : List Expr}
    {ts : List Target} (htargets : List.Forall₂ (fun e t => r.target c e = .ok t) targets ts)
    (simple : ∀ e ∈ targets, e.IsSimpleTarget) {x : String} (hx : x ∈ planWritten ts) :
    ∃ e ∈ targets, e.unparen.ident? = some x := by
  obtain ⟨t, ht, named⟩ := List.mem_filterMap.1 hx
  obtain ⟨e, he, denotes⟩ := exists_rel_of_mem_right htargets ht
  refine ⟨e, he, ?_⟩
  cases t with
  | blank | field => cases named
  | plain place =>
    rw [RedirectContext.target_unparen] at denotes
    rcases (simple e he).shape with ⟨y, hy⟩ | ⟨span, base, member, shape⟩
    · cases shape : e.unparen <;> rw [shape] at hy denotes <;> try cases hy
      have plain := ok_pure.1 denotes
      split at plain
      case isTrue => cases plain
      case isFalse => exact Target.plain.inj plain ▸ named
    · rw [shape, RedirectContext.target] at denotes
      obtain ⟨_, -, denotes⟩ := ok_bind.1 denotes
      obtain ⟨resolution, -, denotes⟩ := ok_bind.1 denotes
      cases resolution with
      | proxied => cases ok_pure.1 denotes
      | direct | other =>
        obtain rfl := Target.plain.inj (ok_pure.1 denotes)
        cases named

theorem forall₂_settled {r : RedirectContext} {c : TypeContext} {early : List String}
    {targets values : List Expr} {ts : List Target} {vs : List TypedExpr}
    (htargets : List.Forall₂ (fun e t => r.target c e = .ok t) targets ts)
    (hvalues : List.Forall₂ (fun e v => r.value c e = .ok v) values vs)
    (paired : targets.length = values.length)
    (h : ∀ p ∈ targets.zip values, ∀ t v, r.target c p.1 = .ok t → r.value c p.2 = .ok v →
      Settled early p.2 (t, v)) :
    List.Forall₂ (Settled early) values (ts.zip vs) := by
  induction htargets generalizing values vs with
  | nil =>
    cases hvalues with
    | nil => exact .nil
    | cons => cases paired
  | cons ht _ ih =>
    cases hvalues with
    | nil => cases paired
    | cons hv hvalues =>
      obtain ⟨first, rest⟩ := List.forall_mem_cons.1 h
      exact .cons (first _ _ ht hv) (ih hvalues (Nat.succ.inj paired) rest)

-- Where each target has its value, and what is evaluated late reads nothing that is written early,
-- what is emitted for an assignment writes the same variables and fields.
theorem Run.simultaneous_assignment_behaves_alike {schema : Schema} {methods : List FuncDecl}
    {g : Generated} {S : Sides} {N : List String} {u : Usage} {r : RedirectContext} {c : TypeContext}
    {call : CallHandler} {rounds depth nesting : Nat} {elseIf : Bool} {temps temps' : Temporaries}
    {span : Span} {targets values : List Expr} {emitted : List Stmt} {maps : List (Nat × Nat)}
    {fr fr₁ fr' : Frame} {m m₁ m' : Machine} {flow : Flow}
    (ok : (Run.ofSchema schema .standard methods).result = .ok g)
    (sides : S.OfRun schema g rounds depth) (agrees : u.Agrees r c (S.view N fr fr' m))
    (simple : ∀ e ∈ targets, e.IsSimpleTarget)
    (paired : targets.length = values.length) (fits : ∀ e ∈ targets ++ values, e.Fits u)
    (names : ∀ e ∈ targets ++ values, e.names ⊆ N)
    (settled : ∀ p ∈ targets.zip values, r.ReadsNoTarget c targets p.1 p.2) (taken : N ⊆ temps.taken)
    (emits : r.stmt c elseIf (.assign span targets .assign values) temps = .ok (emitted, temps'))
    (sync : Sync S N nesting maps fr m fr' m')
    (run : Step.exec S.source call rounds (.assign span targets .assign values) fr m =
      .ok (flow, fr₁) m₁) :
    flow = .next ∧ ∃ maps₁ fr'₁ m'₁,
      Step.sequence (Step.steps g.program (g.program.invoke rounds (depth + 1)) rounds emitted) fr' m' =
        .ok (.next, fr'₁) m'₁ ∧ States S N maps₁ fr₁ m₁ fr'₁ m'₁ := by
  have sound := sides.sound ok
  rw [← sides.target, ← sides.call]
  simp only [RedirectContext.stmt, Redirecting.ok_bind, Redirecting.ok_pure] at emits
  obtain ⟨p, _, planning, rfl, -⟩ := emits
  obtain ⟨ts, vs, ht, hv, planned⟩ := RedirectContext.planned_of_ok planning
  have htargets := ok_mapM.1 ht
  have hvalues := RedirectContext.ok_values.1 hv
  rw [Step.exec] at run
  by_cases isField : ts.any (·.isField) = true
  · have lengths : ts.length = vs.length := by rw [← htargets.length_eq, ← hvalues.length_eq, paired]
    have late : List.Forall₂ (Settled (planWritten ts)) values (ts.zip vs) := by
      refine forall₂_settled htargets hvalues paired fun p hp t v ht hv isField constant x hx
        written => ?_
      obtain ⟨e, he, named⟩ := exists_of_planWritten htargets simple written
      exact settled p hp t v ht hv isField constant e he x named hx
    obtain ⟨rfl, maps₁, fr'₁, m'₁, -, run', states⟩ := Step.split_assigned rounds sound agrees sync
      htargets hvalues planned isField simple (.inr ⟨lengths, late⟩) fits names taken run
    exact ⟨rfl, maps₁, fr'₁, m'₁, run', states⟩
  · cases planned with
    | single => simp [Target.isField] at isField
    | split isField' => exact absurd isField' isField
    | kept =>
      obtain ⟨maps₁, fr'₁, m'₁, -, run', sync₁, rfl⟩ := Step.assign_kept sound agrees sync htargets
        (by simpa using isField) hvalues (fun _ => .inl (Nat.le_of_eq paired)) fits names run
      refine ⟨rfl, maps₁, fr'₁, m'₁, ?_, sync₁.toStates⟩
      simp only [AssignPlan.statements, AssignPlan.keep, Option.toList, List.nil_append,
        List.append_nil, Step.steps, Step.sequence_single]
      exact run'

-- In `xs, o.total, o.flag = []int{o.total}, xs[0], o.total > xs[0]`, each value is the one from
-- before.
theorem Run.simultaneous_assignment_behaves_alike_exchange :
    let xs : Expr := .ident .nowhere "xs"
    let first : Expr := .index .nowhere xs (.literal .nowhere (.int 0))
    let total := flaggedField "total"
    let targets := [xs, total, flaggedField "flag"]
    let values : List Expr := [.composite .nowhere (.slice .int) [.positional total], first,
      .binary .nowhere .gt total first]
    let s : Stmt := .assign .nowhere targets .assign values
    let f := flaggedMethod "F" [s]
    let r : RedirectContext := ⟨"F", ⟨⟨[flaggedOrder]⟩, ["Order"]⟩, .standard⟩
    let c := TypeContext.ofMethod ⟨[flaggedOrder]⟩ ⟨[f]⟩ f.expand
    let frame (o : Nat) (n : Int64) : Frame :=
      .ofTable (Program.parameters f (some (.object o)) [.slice [.int n]])
    ∃ g emitted temps fr' m', (Run.ofSchema flaggedSchema .standard [f]).result = .ok g ∧
      r.stmt c false s (.ofMethod f.expand) = .ok (emitted, temps) ∧
      Step.sequence (Step.steps g.program (g.program.invoke 0 255) 0 emitted) (frame 0 1)
        (flaggedRecord 2 false) = .ok (.next, fr') m' ∧
      fr'.get? "xs" = some (.slice [.int 2]) ∧ flaggedOrder.Agree 0 0 0 (flaggedObject 1 true) m' := by
  intro xs first total targets values s f r c frame
  have scope : f.redirectScope ⟨[flaggedOrder]⟩ ⟨[f]⟩ = .ok ⟨⟨[flaggedOrder]⟩, ["Order"]⟩ :=
    flaggedOrder_primitive.redirectScope_eq rfl _
  obtain ⟨g, ok⟩ := Run.exists_ok_of_scope (build_flaggedSchema ▸ scope) (by decide +kernel)
    (by decide +kernel)
  obtain ⟨⟨emitted, temps⟩, emits⟩ :=
    exists_ok (show (r.stmt c false s (.ofMethod f.expand)).isOk by decide +kernel)
  let p : Program := ⟨[.func f]⟩
  let S := flaggedOrder.sides ⟨[flaggedOrder]⟩ p g.program 0 "o" 0 0 0
  have sides : S.OfRun flaggedSchema g 0 254 := EntityFields.sides_ofRun flaggedOrder_primitive ok
    build_flaggedSchema.symm (Program.underlying?_func f)
  have on : f.On flaggedOrder ⟨"o", .pointer (.named "Order")⟩ := ⟨rfl, rfl, by decide, by decide⟩
  have arguments : ∀ v ∈ [Value.slice [.int 1]], v.IsArgument :=
    List.forall_mem_singleton.2 (.slice (List.forall_mem_singleton.2 (.int 1)))
  have sync : Sync S f.expand.names 0 [] (frame 0 1) (flaggedObject 2 false) (frame 0 1)
      (flaggedRecord 2 false) :=
    EntityFields.agree_sync flaggedOrder_primitive (flaggedOrder_agree 2 false) (by decide +kernel)
      rfl rfl on ⟨rfl, rfl⟩ arguments _
  have field (name : String) (found : (flaggedOrder.field? name).isSome) :
      (flaggedField name).Fits (flaggedOrder.usage "o") := .inl ⟨"o", rfl, rfl, found⟩
  have fitsTotal := field "total" (by decide)
  have fits : ∀ e ∈ targets ++ values, e.Fits (flaggedOrder.usage "o") := by
    have fitsXs : xs.Fits (flaggedOrder.usage "o") := show some "o" ≠ some "xs" by decide
    refine List.forall_mem_cons.2 ⟨fitsXs, List.forall_mem_cons.2 ⟨fitsTotal, List.forall_mem_cons.2
      ⟨field "flag" (by decide), List.forall_mem_cons.2 ⟨?_, List.forall_mem_cons.2 ⟨?_,
        List.forall_mem_singleton.2 ?_⟩⟩⟩⟩⟩
    · exact ⟨.inl ⟨_, rfl⟩, fitsTotal, trivial⟩
    · exact ⟨fitsXs, trivial⟩
    · exact ⟨fitsTotal, fitsXs, trivial⟩
  have simple : ∀ e ∈ targets, e.IsSimpleTarget := by
    refine List.forall_mem_cons.2 ⟨⟨.inl ⟨_, rfl⟩⟩, List.forall_mem_cons.2 ⟨⟨.inr ⟨_, _, _, rfl⟩⟩,
      List.forall_mem_singleton.2 ⟨.inr ⟨_, _, _, rfl⟩⟩⟩⟩
  have names : ∀ e ∈ targets ++ values, e.names ⊆ f.expand.names := by decide
  have run : Step.exec p (p.invoke 0 255) 0 s (frame 0 1) (flaggedObject 2 false) =
    .ok (.next, frame 0 2) (flaggedObject 1 true) := rfl
  have computed : ∀ q ∈ targets.zip values, (r.value c q.2).toOption.any (·.isConstant) = false := by
    decide
  have settled : ∀ q ∈ targets.zip values, r.ReadsNoTarget c targets q.1 q.2 := fun q hq =>
    .of_isConstant (computed q hq)
  have paired : targets.length = values.length := rfl
  have agrees (fr fr' : Frame) (m : Machine) : (flaggedOrder.usage "o").Agrees r c
      (S.view f.expand.names fr fr' m) :=
    EntityFields.usage_agrees flaggedOrder_primitive on scope _ _ _ _
  obtain ⟨-, maps, fr', m', run', states⟩ := Run.simultaneous_assignment_behaves_alike ok sides
    (agrees _ _ _) simple paired fits names settled (List.subset_append_right ..) emits sync run
  have built := Catalog.build_spec flaggedSchema .standard
  rw [build_flaggedSchema] at built
  refine ⟨g, emitted, temps, fr', m', ok, emits, run', ?_,
    EntityFields.states_agree flaggedOrder_primitive built states
      (EntityFields.inKind_sides flaggedOrder_primitive (by decide +kernel))⟩
  have rel : Option.Rel _ (some (Value.slice [.int 2])) (fr'.get? "xs") :=
    states.scopes.get? (show "xs" ∈ f.expand.names by decide)
  cases held : fr'.get? "xs" with
  | none =>
    rw [held] at rel
    cases rel
  | some v =>
    rw [held, Option.rel_some_some] at rel
    rw [Value.IsArgument.eq_of_alike (.slice (List.forall_mem_singleton.2 (.int 2))) rel]

-- In `o.flag, x = x == 1, 2`, the comparison is taken for a constant and stays where the mutator is
-- called, after the variable has been written.
theorem Run.comparison_after_variable_written :
    let x : Expr := .ident .nowhere "x"
    let one : Expr := .literal .nowhere (.int 1)
    let f := flaggedMethod "F"
      [.assign .nowhere [x] .define [one],
       .assign .nowhere [flaggedField "flag", x] .assign
        [.binary .nowhere .eq x one, .literal .nowhere (.int 2)]]
    f.ActsApart [.slice []] := by
  intro x one f
  exact .of_runs (flaggedOrder.fields.getLast (by decide)) (.bool true) (.bool false)
    rfl (by decide +kernel) (.of_endsWith (by decide +kernel) (by decide +kernel))
      (List.getLast_mem _) (by decide)
    (by decide +kernel) (by decide +kernel)

-- A loop whose post statement writes fields, if it uses no variable that the body declares in its
-- own scope: what the loop does on plain objects, the redirected one does on wrappers.
theorem Run.relocated_post_behaves_alike {schema : Schema} {methods : List FuncDecl} {g : Generated}
    {S : Sides} {N : List String} {u : Usage} {r : RedirectContext} {c : TypeContext}
    {call : CallHandler} {holds : Machine → Bool} {rounds depth nesting : Nat} {elseIf : Bool}
    {temps temps' : Temporaries} {span : Span} {init post : Option Stmt} {cond : Option Expr}
    {body : Block} {emitted : List Stmt} {maps : List (Nat × Nat)} {fr fr₁ fr' : Frame}
    {m m₁ m' : Machine} {flow : Flow}
    (ok : (Run.ofSchema schema .standard methods).result = .ok g)
    (sides : S.OfRun schema g rounds depth) (kinds : ∀ m, holds m = true → S.InKind m)
    (fits : (Stmt.forLoop span init cond post body).Fits u)
    (names : (Stmt.forLoop span init cond post body).expand.names ⊆ N)
    (agrees : ∀ fr fr' m, u.Agrees r c (S.view N fr fr' m)) (taken : N ⊆ temps.taken)
    (emits : r.stmt c elseIf (Stmt.forLoop span init cond post body).expand temps =
      .ok (emitted, temps'))
    (sync : Sync S N nesting maps fr m fr' m')
    (run : Step.watched S.source call rounds holds (.forLoop span init cond post body) fr m =
      .ok (flow, fr₁) m₁) :
    ∃ maps₁ flow' fr'₁ m'₁,
      Step.sequence (Step.steps g.program (g.program.invoke rounds (depth + 1)) rounds emitted) fr' m' =
        .ok (flow', fr'₁) m'₁ ∧
      flow.Alike S maps₁ flow' ∧ Sync S N nesting maps₁ fr₁ m₁ fr'₁ m'₁ := by
  obtain ⟨maps₁, flow', fr'₁, m'₁, -, run', sync₁, alike⟩ :=
    (RedirectContext.stmt_simulates (sides.sound ok) kinds _ fits names agrees taken emits).run
      (List.nil_subset _) sync run
  rw [sides.call, sides.target] at run'
  exact ⟨maps₁, flow', fr'₁, m'₁, run', alike, sync₁⟩

-- In `for i := 0; o.total < 3; o.total = i { i = i + 1 }`, the condition sees each number that is
-- counted.
theorem Run.relocated_post_behaves_alike_count :
    let i : Expr := .ident .nowhere "i"
    let number (n : Int64) : Expr := .literal .nowhere (.int n)
    let total := flaggedField "total"
    let init : Stmt := .assign .nowhere [i] .define [number 0]
    let cond : Expr := .binary .nowhere .lt total (number 3)
    let post : Stmt := .assign .nowhere [total] .assign [i]
    let body : Block := .mk .nowhere
      [.assign .nowhere [i] .assign [.binary .nowhere .add i (number 1)]]
    let s : Stmt := .forLoop .nowhere (some init) (some cond) (some post) body
    let f := flaggedMethod "F" [s]
    let r : RedirectContext := ⟨"F", ⟨⟨[flaggedOrder]⟩, ["Order"]⟩, .standard⟩
    let c := TypeContext.ofMethod ⟨[flaggedOrder]⟩ ⟨[f]⟩ f.expand
    let frame (o : Nat) : Frame := .ofTable (Program.parameters f (some (.object o)) [.slice []])
    ∃ g emitted temps fr' m', (Run.ofSchema flaggedSchema .standard [f]).result = .ok g ∧
      r.stmt c false s.expand (.ofMethod f.expand) = .ok (emitted, temps) ∧
      Step.sequence (Step.steps g.program (g.program.invoke 9 255) 9 emitted) (frame 0)
        (flaggedRecord 0 false) = .ok (.next, fr') m' ∧
      ((m'.record 0).data.get? "total").bind (·.key?) = some (.int 3) := by
  intro i number total init cond post body s f r c frame
  have scope : f.redirectScope ⟨[flaggedOrder]⟩ ⟨[f]⟩ = .ok ⟨⟨[flaggedOrder]⟩, ["Order"]⟩ :=
    flaggedOrder_primitive.redirectScope_eq rfl _
  obtain ⟨g, ok⟩ := Run.exists_ok_of_scope (build_flaggedSchema ▸ scope) (by decide +kernel)
    (by decide +kernel)
  obtain ⟨⟨emitted, temps⟩, emits⟩ :=
    exists_ok (show (r.stmt c false s.expand (.ofMethod f.expand)).isOk by decide +kernel)
  let p : Program := ⟨[.func f]⟩
  let S := flaggedOrder.sides ⟨[flaggedOrder]⟩ p g.program 9 "o" 0 0 0
  have sides : S.OfRun flaggedSchema g 9 254 := EntityFields.sides_ofRun flaggedOrder_primitive ok
    build_flaggedSchema.symm (Program.underlying?_func f)
  have on : f.On flaggedOrder ⟨"o", .pointer (.named "Order")⟩ := ⟨rfl, rfl, by decide, by decide⟩
  have arguments : ∀ v ∈ [Value.slice []], v.IsArgument :=
    List.forall_mem_singleton.2 (.slice (List.forall_mem_nil _))
  have sync : Sync S f.expand.names 0 [] (frame 0) (flaggedObject 0 false) (frame 0)
      (flaggedRecord 0 false) :=
    EntityFields.agree_sync flaggedOrder_primitive (flaggedOrder_agree 0 false) (by decide +kernel)
      rfl rfl on ⟨rfl, rfl⟩ arguments _
  have field : total.Fits (flaggedOrder.usage "o") := .inl ⟨"o", rfl, rfl, by decide⟩
  have free : i.Fits (flaggedOrder.usage "o") := show some "o" ≠ some "i" by decide
  have fits : s.Fits (flaggedOrder.usage "o") := by
    refine ⟨?_, ?_, ⟨?_, fun _ => by decide⟩, ⟨⟨?_, .inl ?_, fun _ => .inl (by decide)⟩,
      trivial⟩⟩
    · rintro _ ⟨⟩
      refine ⟨List.forall_mem_singleton.2 trivial, List.forall_mem_singleton.2
        ⟨free, fun member known => ?_⟩⟩
      exact absurd known.1 (by decide)
    · rintro _ ⟨⟩
      exact ⟨field, trivial⟩
    · rintro _ ⟨⟩
      exact ⟨List.forall_mem_cons.2 ⟨field, List.forall_mem_singleton.2 free⟩,
        .inr (List.forall_mem_singleton.2 (.inl ⟨"o", rfl, rfl, by decide⟩)),
        fun _ => .inl (by decide)⟩
    · exact List.forall_mem_cons.2 ⟨free, List.forall_mem_singleton.2 ⟨free, trivial⟩⟩
    · exact List.forall_mem_singleton.2 id
  have counts : (Step.watched p (p.invoke 9 255) 9 (flaggedOrder.inKind 0) s (frame 0)).endsWith
      (flaggedObject 0 false) (fun r m => r.1.goesOn &&
        ((m.object 0).fields.get? "total").bind (·.key?) = some (.int 3)) = true := by
    decide +kernel
  obtain ⟨⟨flow, fr⟩, m, run, ends⟩ := Exec.exists_of_endsWith counts
  obtain ⟨maps, flow', fr', m', run', alike, sync⟩ := Run.relocated_post_behaves_alike ok sides
    (fun m h => EntityFields.inKind_sides flaggedOrder_primitive h) fits (by decide)
    (fun fr fr' m => EntityFields.usage_agrees flaggedOrder_primitive on scope _ _ _ _)
    (List.subset_append_right ..) emits sync run
  have built := Catalog.build_spec flaggedSchema .standard
  rw [build_flaggedSchema] at built
  have agree := EntityFields.states_agree flaggedOrder_primitive built sync.toStates sync.inKind
  have total := agree.fields (flaggedOrder.fields.head (by decide)) (List.head_mem _)
  rw [Bool.and_eq_true, decide_eq_true_eq] at ends
  cases alike with
  | next => exact ⟨g, emitted, temps, fr', m', ok, emits, run', total ▸ ends.2⟩
  | _ => cases ends.1

-- In `for i := 0; i < 3; o.total = i { i = i + 1; i := 9; _ = i }`, what is moved into the body
-- reads the variable that the body declares.
theorem Run.relocated_post_reads_local :
    let i : Expr := .ident .nowhere "i"
    let number (n : Int64) : Expr := .literal .nowhere (.int n)
    let f := flaggedMethod "F"
      [.forLoop .nowhere (some (.assign .nowhere [i] .define [number 0]))
        (some (.binary .nowhere .lt i (number 3)))
        (some (.assign .nowhere [flaggedField "total"] .assign [i]))
        (.mk .nowhere
          [.assign .nowhere [i] .assign [.binary .nowhere .add i (number 1)],
           .assign .nowhere [i] .define [number 9],
           .assign .nowhere [.ident .nowhere "_"] .assign [i]])]
    f.ActsApart [.slice []] := by
  intro i number f
  exact .of_runs (flaggedOrder.fields.head (by decide)) (.int 3) (.int 9) rfl (by decide +kernel)
    (.of_endsWith (by decide +kernel) (by decide +kernel)) (List.head_mem _) (by decide)
    (by decide +kernel) (by decide +kernel)

end FieldAccess
