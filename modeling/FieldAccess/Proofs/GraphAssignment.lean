import FieldAccess.Proofs.AssignmentShape
import FieldAccess.Proofs.GraphPlans
import FieldAccess.Schema.Samples

namespace FieldAccess

namespace AssignPlan

variable {p : AssignPlan} {emitted : List Stmt} {program : Program} {call : CallHandler} {rounds : Nat}
  {f f₁ : Frame} {m m₁ : Machine}

-- However a plan is laid out, it runs as its parts do one after the other.
theorem Laid.runs (laid : p.Laid emitted) (apart : p.plain = none ∨ p.mutators = [])
    (run : Step.sequence (Step.steps program call rounds p.statements) f m = .ok (.next, f₁) m₁) :
    Step.sequence (Step.steps program call rounds emitted) f m = .ok (.next, f₁) m₁ := by
  have emptied (span : Span) :
      Step.sequence (Step.steps program call rounds (p.statements ++ [.empty span])) f m =
        .ok (.next, f₁) m₁ := by
    rw [Step.steps_append, Step.sequence_append_of_ok run]
    rfl
  cases laid with
  | block => exact run
  | emptied span => exact emptied span
  | header span =>
    cases plain : p.plain with
    | none => simpa [statements, plain] using emptied span
    | some s =>
      have none : p.mutators = [] := apart.resolve_left (by simp [plain])
      simpa [statements, plain, none] using run

end AssignPlan

namespace RedirectContext

variable {r : RedirectContext} {o : TypeContext} {temps temps' : Temporaries}

-- Nothing is left in the plain part of an assignment that writes fields, and one that writes none
-- is kept.
theorem Planned.laid {span : Span} {written : List Expr} {ts : List Target} {vs : List TypedExpr}
    {p : AssignPlan} (h : Planned r span written temps ts vs p temps')
    (fields : ∀ t ∈ ts, t.isPlain = false) :
    (p.mutators ≠ [] ∨ p.bindings = []) ∧ (p.plain = none ∨ p.mutators = []) := by
  cases isField : ts.any (·.isField) with
  | true =>
    obtain ⟨plain, mutators⟩ := h.moves isField fields
    exact ⟨.inl mutators, .inl plain⟩
  | false =>
    cases h with
    | kept => exact ⟨.inr rfl, .inr rfl⟩
    | single => cases isField
    | split other => simp [isField] at other

end RedirectContext

section

variable {p : Program} {call : CallHandler} {rounds : Nat} {f f₁ : Frame} {m m₁ : Machine} {flow : Flow}

-- A target that denotes a field has the value that the field holds.
theorem Expr.FieldTarget.eval_of_resolve {c : TypeContext} {e : Expr} {a : Nat} {name : String}
    {v : Value} (h : e.FieldTarget c) (denotes : Place.resolve p call f e m = .ok (.field a name) m₁)
    (held : (m₁.object a).fields.get? name = some v) : Exec.eval p call f e m = .ok v m₁ := by
  induction h with
  | blank => cases (Exec.ok_pure.1 denotes).1
  | field =>
    rw [Place.resolve] at denotes
    obtain ⟨o, _, ho, denotes⟩ := Exec.ok_bind.1 denotes
    cases o with
    | object address =>
      obtain ⟨same, rfl⟩ := Exec.ok_pure.1 denotes
      cases same
      rw [Exec.eval, Exec.bind_of_ok ho, Exec.select, Exec.get_bind, held]
      rfl
    | _ => exact (Exec.ok_fail.1 denotes).elim
  | paren _ ih =>
    rw [Place.resolve] at denotes
    exact ih denotes

-- To change a field by an operation is to assign the result to it.
theorem Step.update_field {op : BinaryOp} {target value : Expr} {a : Nat} {name : String} {v : Value}
    (arithmetic : op.isArithmetic) (denotes : Place.resolve p call f target m = .ok (.field a name) m)
    (current : Exec.eval p call f target m = .ok v m)
    (held : (m.object a).fields.get? name = some v)
    (run : update p call op target (eval p call value) f m = .ok (flow, f₁) m₁) :
    assign p call [target] .assign [.binary target.span op target value] f m =
      .ok (flow, f₁) m₁ := by
  obtain ⟨place, _, _, resolving, reading⟩ := ok_bind.1 run
  obtain ⟨resolved, rfl⟩ := ok_reading.1 resolving
  obtain ⟨rfl, rfl⟩ := EStateM.Result.ok.inj (denotes.symm.trans resolved)
  obtain ⟨w, _, _, read, evaluating⟩ := ok_bind.1 reading
  obtain ⟨rfl, rfl, rfl⟩ := (Place.ok_read_field held).1 read
  obtain ⟨b, _, m₂, evaluated, combining⟩ := ok_bind.1 evaluating
  obtain ⟨hb, rfl⟩ := ok_reading.1 evaluated
  obtain ⟨d, _, _, combined, writing⟩ := ok_bind.1 combining
  obtain ⟨hd, rfl⟩ := ok_lift.1 combined
  obtain ⟨result, rfl⟩ := Exec.ok_ofExcept.1 hd
  obtain ⟨_, _, _, written, ending⟩ := ok_bind.1 writing
  obtain ⟨rfl, rfl, rfl⟩ := ok_pure.1 ending
  have combined : Exec.eval p call f (.binary target.span op target value) m = .ok d m₂ := by
    rw [Exec.eval_arithmetic arithmetic, Exec.bind_of_ok current, Exec.bind_of_ok hb]
    exact Exec.ok_ofExcept.2 ⟨result, rfl⟩
  refine ok_assign.2 ⟨[.field a name], m, [d], m₂, ?_, ?_, ?_, rfl⟩
  · exact Exec.ok_bind.2 ⟨_, m, resolved, rfl⟩
  · have paired : [Expr.binary target.span op target value].length = [target].length := rfl
    refine (Exec.evalFor_paired paired).2 ?_
    rw [Exec.actions, Exec.all, Exec.bind_of_ok combined]
    rfl
  · exact ok_bind.2 ⟨(), _, _, written, rfl⟩

end

section

variable {s : Scene} {r : RedirectContext} {p : Program} {call : CallHandler} {f' f₁ : Frame}
  {m₁ m' : Machine} {rounds : Nat} {flow : Flow} (covers : r.Covers s.types s.names)
  (served : s.types.catalog.ServedBy s.program s.call) (locals : s.Local f' m')
  (matching : Matching s.types.catalog s.nodes s.machine m')

include covers served locals matching

theorem Scene.update_expanded {op : BinaryOp} {target value : Expr} {t : Target}
    (ht : r.target s.types target = .ok t) (aims : target.FieldTarget s.types)
    (names : target.names ⊆ s.names) (arithmetic : op.isArithmetic)
    (run : Step.update p call op target (Step.eval p call value) s.frame s.machine =
      .ok (flow, f₁) m₁) :
    Step.assign p call [target] .assign [.binary target.span op target value] s.frame s.machine =
      .ok (flow, f₁) m₁ := by
  have running := run
  rw [Step.update] at running
  obtain ⟨place, _, _, resolving, reading⟩ := Step.ok_bind.1 running
  obtain ⟨resolved, rfl⟩ := Step.ok_reading.1 resolving
  obtain ⟨rfl, aim⟩ := aims.aims covers served locals matching names ht resolved
  cases aim with
  | blank =>
    -- Nothing is read from the blank name, so that the operation fails.
    obtain ⟨w, _, _, read, evaluating⟩ := Step.ok_bind.1 reading
    obtain ⟨_, got, _⟩ := Place.ok_access_blank.1 read
    obtain ⟨rfl, rfl⟩ := Prod.mk.inj (Exec.ok_pure.1 got).1
    obtain ⟨b, _, _, _, combining⟩ := Step.ok_bind.1 evaluating
    obtain ⟨d, _, _, combined, _⟩ := Step.ok_bind.1 combining
    obtain ⟨result, _⟩ := Exec.ok_ofExcept.1 (Step.ok_lift.1 combined).1
    cases op
    case eq | ne | lt | le | gt | ge | and | or => cases arithmetic
    all_goals cases result
  | @field n receiver info k mem found field yields =>
    obtain ⟨v, held, _⟩ := (matching.matched n mem).fields found field
    exact Step.update_field arithmetic resolved (aims.eval_of_resolve resolved held) held run

-- In this class, a statement runs like what it is short for.
theorem Scene.exec_expanded {st : Stmt} {span : Span} {targets values : List Expr} {ts : List Target}
    (expanded : st.expand = .assign span targets .assign values)
    (htargets : List.Forall₂ (fun e t => r.target s.types e = .ok t) targets ts)
    (aims : ∀ e ∈ targets, e.FieldTarget s.types) (names : ∀ e ∈ targets, e.names ⊆ s.names)
    (operands : ∀ e ∈ values, ∃ k, e.Operand s.types k)
    (run : Step.exec p call rounds st s.frame s.machine = .ok (flow, f₁) m₁) :
    Step.assign p call targets .assign values s.frame s.machine = .ok (flow, f₁) m₁ := by
  cases st with
  | assign at_ written op given =>
    rw [Step.exec] at run
    cases op with
    | assign =>
      obtain ⟨rfl, rfl, -, rfl⟩ := Stmt.assign.inj expanded
      exact run
    | define => cases expanded
    | compound op =>
      rw [Stmt.expand] at expanded
      split at expanded
      case isFalse => cases expanded
      case isTrue =>
        -- Only one target and one value are supported.
        rcases written with _ | ⟨target, _ | ⟨_, _⟩⟩
        case nil | cons.cons => exact (Exec.ok_fail.1 (Step.ok_lift.1 run).1).elim
        rcases given with _ | ⟨value, _ | ⟨_, _⟩⟩
        case nil | cons.cons => exact (Exec.ok_fail.1 (Step.ok_lift.1 run).1).elim
        obtain ⟨rfl, rfl, -, rfl⟩ := Stmt.assign.inj expanded
        obtain ⟨_, operand⟩ := operands _ (List.mem_singleton_self _)
        cases operand with
        | binary arithmetic =>
          cases htargets with
          | cons ht =>
            have same : Step.eval p call (value.asOperandOf op value.span) = Step.eval p call value := by
              rw [Expr.asOperandOf]
              split <;> rfl
            exact s.update_expanded covers served locals matching ht (aims _ (by simp))
              (names _ (by simp)) arithmetic (same ▸ run)
  | step at_ target increment =>
    rw [Step.exec] at run
    rw [Stmt.expand] at expanded
    split at expanded
    case isFalse => cases expanded
    case isTrue =>
      obtain ⟨rfl, rfl, -, rfl⟩ := Stmt.assign.inj expanded
      cases htargets with
      | cons ht =>
        have arithmetic : (stepOp increment).isArithmetic := by cases increment <;> rfl
        exact s.update_expanded covers served locals matching ht (aims _ (by simp))
          (names _ (by simp)) arithmetic run
  | _ => cases expanded

end

-- The context of a redirection is that of a method: its scope, and types of variables that the method
-- binds.
structure RedirectContext.InMethod (r : RedirectContext) (c : TypeContext) (names : List String)
    (f : FuncDecl) (methods : List FuncDecl) : Prop where
  scope : f.redirectScope c.catalog ⟨methods⟩ = .ok r.scope
  bound : ∀ x ∈ names, ∀ type, c.lookup? x = some type →
    type ∈ TypeContext.typesInMethod c.catalog ⟨methods⟩ f.expand

theorem RedirectContext.InMethod.covers {r : RedirectContext} {c : TypeContext} {names : List String}
    {f : FuncDecl} {methods : List FuncDecl} (h : r.InMethod c names f methods) : r.Covers c names := by
  obtain ⟨catalog, touched⟩ := FuncDecl.mem_redirectScope h.scope
  refine ⟨catalog, fun entity mem target related known => .inl ?_,
    fun x hx type entity lookup named known => ?_⟩
  · rw [catalog] at related known
    obtain ⟨root, isRoot, reaches⟩ := (touched entity).1 mem
    exact (touched target).2 ⟨root, isRoot, reaches.step related known⟩
  · exact (touched entity).2 ⟨entity, .inr ⟨type, h.bound x hx type lookup, named⟩, .root known⟩

-- A statement that assigns values to fields at the ends of chains of relations, one to each. Shorthands
-- count as what they are short for, and are written out before a method is redirected.
structure Stmt.AssignsFields (c : TypeContext) (names : List String) (st : Stmt)
    (targets values : List Expr) : Prop where
  expanded : ∃ span, st.expand = .assign span targets .assign values
  paired : targets.length = values.length
  aims : ∀ e ∈ targets, e.FieldTarget c
  operands : ∀ e ∈ values, ∃ k, e.Operand c k
  used : ∀ e ∈ targets ++ values, e.names ⊆ names

theorem Run.servedBy {schema : Schema} {methods : List FuncDecl} {g : Generated}
    (ok : (Run.ofSchema schema .standard methods).result = .ok g) (rounds depth : Nat) :
    (Catalog.build schema .standard {}).value.ServedBy g.program
      (g.program.invoke rounds (depth + 1)) := by
  obtain ⟨redirected, -, -, clean, rfl⟩ := redirects_of_ok ok
  exact clean.servedBy rounds depth

-- An assignment stores into the records of the objects that its targets denoted before it, whatever
-- it makes of the relations on the way there. So the graphs match afterwards if fields of an entity
-- have keys of their own and no nil is stored.
theorem Run.assignment_keeps_matching {schema : Schema} {methods : List FuncDecl} {g : Generated}
    {f : FuncDecl} {r : RedirectContext} {c : TypeContext} {names : List String} {st : Stmt}
    {targets values : List Expr} {temps : Temporaries} {emitted : List Stmt} {nodes : List Node}
    {fr fr₁ fr' : Frame} {m m₁ m' : Machine} {p : Program} {call : CallHandler} {limit : Nat}
    {flow : Flow} (ok : (Run.ofSchema schema .standard methods).result = .ok g)
    (catalog : c.catalog = (Catalog.build schema .standard {}).value) (apart : c.catalog.KeysApart)
    (within : r.InMethod c names f methods) (assigns : st.AssignsFields c names targets values)
    (emits : r.Emits c temps st.expand emitted) (taken : names ⊆ temps.taken)
    (matching : Matching c.catalog nodes m m') (locals : Locals c nodes names fr fr' m')
    (scopes : fr'.scopes ≠ []) (run : Step.exec p call limit st fr m = .ok (flow, fr₁) m₁)
    (set : ∀ pair ∈ targets.zip values, Exec.eval p call fr pair.2 m = .ok .nil m →
      pair.1.unparen.ident? = some "_") (rounds depth : Nat) :
    flow = .next ∧ fr₁ = fr ∧ ∃ fr'₁ m'₁,
      Step.sequence (Step.steps g.program (g.program.invoke rounds (depth + 1)) rounds emitted) fr' m' =
        .ok (.next, fr'₁) m'₁ ∧
      Matching c.catalog nodes m₁ m'₁ ∧ Locals c nodes names fr fr'₁ m'₁ := by
  have served := servedBy ok rounds depth
  rw [← catalog] at served
  let s : Scene := ⟨c, nodes, names, fr, m, g.program, g.program.invoke rounds (depth + 1)⟩
  have covers : r.Covers s.types s.names := within.covers
  obtain ⟨⟨span, expanded⟩, paired, aims, operands, used⟩ := assigns
  rw [expanded] at emits
  obtain ⟨plan, temps', planning, laid⟩ :=
    emits.exists_laid (fun _ => by rw [RedirectContext.stmt]) fun _ => rfl
  obtain ⟨ts, vs, ht, hv, planned⟩ := RedirectContext.planned_of_ok planning
  have htargets := ok_mapM.1 ht
  have hvalues := RedirectContext.ok_values.1 hv
  have lengths : ts.length = vs.length := by rw [← htargets.length_eq, ← hvalues.length_eq, paired]
  have usedTargets : ∀ e ∈ targets, e.names ⊆ names := fun e he => used e (List.mem_append_left _ he)
  have run := s.exec_expanded covers served locals matching expanded htargets aims usedTargets operands
    run
  obtain ⟨places, m₂, vals, m₃, resolved, evaluated, written, rfl⟩ := Step.ok_assign.1 run
  obtain rfl := s.resolveEach_same covers served locals matching htargets aims usedTargets resolved
  obtain ⟨rfl, stores, rfl, rfl, writes, sound⟩ := s.exists_stores covers served locals matching
    htargets hvalues paired aims operands used resolved
    ((Exec.evalFor_paired paired.symm).1 evaluated)
    (fun _ _ _ mem => planned.checked mem lengths) set
  rw [Place.writeAll_eq, ← writes] at written
  obtain ⟨rfl, rfl⟩ := (Place.ok_writePairs_fields
    (List.forall_mem_map.2 fun w hw => (sound w hw).aims.isField)).1 written
  refine ⟨rfl, rfl, ?_⟩
  obtain ⟨fr'₁, m'₁, stored, locals, matching⟩ := Store.planned_runs rounds served apart locals matching
    sound taken scopes htargets planned
  obtain ⟨kept, parts⟩ := planned.laid (List.forall_mem_map.2 fun w hw => (sound w hw).aims.isPlain)
  exact ⟨fr'₁, m'₁, (laid kept).runs parts stored, matching, locals⟩

-- A run with one method, whose scope is known.
theorem Run.exists_ok_of_scope {schema : Schema} {f : FuncDecl} {scope : RedirectScope}
    (known : f.redirectScope (Catalog.build schema .standard {}).value ⟨[f]⟩ = .ok scope)
    (redirects : (f.expand.redirectIn .standard
      (TypeContext.ofMethod (Catalog.build schema .standard {}).value ⟨[f]⟩ f.expand) scope).isOk)
    (apart : Namespace.allCollisions Settings.standard.reserved
      ((Catalog.build schema .standard {}).value.entities.map (Namespace.ofEntity · [f])) = []) :
    ∃ g, (Run.ofSchema schema .standard [f]).result = .ok g := by
  obtain ⟨f', redirects⟩ := exists_ok redirects
  have becomes : f.redirect (Catalog.build schema .standard {}).value ⟨[f]⟩ .standard = .ok f' := by
    rw [FuncDecl.redirect_eq, known]
    exact redirects
  have each : Redirects schema .standard [f] [f'] := congrArg (· :: []) becomes
  have ran := result_of_redirects each fun strict => by cases strict
  rw [if_pos apart] at ran
  exact ⟨_, ran⟩

-- The receiver is the only variable.
theorem Locals.receiver {c : TypeContext} {nodes : List Node} {n : Node} {x : String} {f f' : Frame}
    {m' : Machine} {w : Nat} (mem : n ∈ nodes)
    (type : c.lookup? x = some (.pointer (.named n.entity))) (held : f.get? x = some (.object n.object))
    (held' : f'.get? x = some (.object w)) (wraps : m'.Wraps w n.entity n.record) :
    Locals c nodes [x] f f' m' := by
  refine ⟨fun {k y type'} hy known of => ?_⟩
  obtain rfl := List.mem_singleton.1 hy
  obtain rfl := Option.some.inj (type.symm.trans known)
  refine ⟨_, _, held, held', ?_, .object mem wraps⟩
  cases k with
  | int => cases of
  | pointer entity => exact .inr ⟨n, mem, Option.some.inj of.1, rfl⟩

theorem RedirectContext.InMethod.receiver {r : RedirectContext} {c : TypeContext} {x : String}
    {type : TypeExpr} {f : FuncDecl} {methods : List FuncDecl}
    (scope : f.redirectScope c.catalog ⟨methods⟩ = .ok r.scope) (known : c.lookup? x = some type)
    (bound : type ∈ TypeContext.typesInMethod c.catalog ⟨methods⟩ f.expand) :
    r.InMethod c [x] f methods := by
  refine ⟨scope, fun y hy type' lookup => ?_⟩
  obtain rfl := List.mem_singleton.1 hy
  exact Option.some.inj (known.symm.trans lookup) ▸ bound

def nodeVal : FieldInfo :=
  ⟨"Node", { name := "val", type := "int" }, .proxied (.primitive "int" "GetInt")⟩

def nodeNext : FieldInfo :=
  ⟨"Node", { name := "next", type := "*Node" }, .proxied (.relation .single "Node")⟩

theorem node_fields : Kind.int.Field nodeVal ∧ (Kind.pointer "Node").Field nodeNext :=
  ⟨⟨rfl, by decide +kernel⟩, ⟨rfl, by decide +kernel⟩⟩

theorem linked_field {k : Kind} {entity name : String} {info : FieldInfo}
    (found : (Catalog.build .linked .standard {}).value.field? entity name = some info)
    (field : k.Field info) :
    (name = "val" ∧ info = nodeVal ∧ k = .int) ∨
      (name = "next" ∧ info = nodeNext ∧ k = .pointer "Node") := by
  obtain ⟨e, he, -, hf⟩ := Catalog.mem_of_field? found
  have all : ∀ e ∈ (Catalog.build .linked .standard {}).value.entities, ∀ info ∈ e.fields,
      info = nodeVal ∨ info = nodeNext := by decide +kernel
  rcases all e he info hf with rfl | rfl
  · exact .inl ⟨(Catalog.name_of_field? found).symm, rfl, field.kind_eq node_fields.1⟩
  · exact .inr ⟨(Catalog.name_of_field? found).symm, rfl, field.kind_eq node_fields.2⟩

-- The method `func (n *Node) Twist() { n.next, n.next.val = n, 7 }`.
def nodeTwist : FuncDecl where
  doc := none
  receiver := some ⟨"n", .pointer (.named "Node")⟩
  name := "Twist"
  typeParams := []
  params := []
  results := []
  body :=
    let n := Expr.ident .nowhere "n"
    let next := Expr.select .nowhere n "next"
    .mk .nowhere [.assign .nowhere [next, .select .nowhere next "val"] .assign
      [n, .literal .nowhere (.int 7)]]
  span := .nowhere

-- In a list of two nodes, `n.next, n.next.val = n, 7` sets the value of the second node, though the
-- first one points at itself by then.
theorem Run.assignment_keeps_matching_twist :
    let catalog := (Catalog.build .linked .standard {}).value
    let r : RedirectContext := ⟨"Twist", ⟨catalog, ["Node"]⟩, .standard⟩
    let c : TypeContext := ⟨catalog, ⟨[nodeTwist]⟩, [⟨"n", some (.pointer (.named "Node"))⟩]⟩
    let nodes : List Node := [⟨"Node", 0, 0⟩, ⟨"Node", 1, 1⟩]
    let node (v : Int64) (next : Value) : Object := ⟨"Node", .ofList [("val", .int v), ("next", next)]⟩
    let record (v : Int64) (expand : Table String) : Record :=
      ⟨"", "nodes", .ofList [("val", .int v)], expand⟩
    let m (v : Int64) (next : Value) : Machine := { objects := #[node 1 next, node v .nil] }
    let m' : Machine := {
      records := #[record 1 (.ofList [("next", .record 1)]), record 2 .empty]
      objects := #[⟨"Node", .ofList [(recordField, .record 0)]⟩] }
    let f : Frame := ⟨[.ofList [("n", .object 0)]]⟩
    ∃ g st emitted f'₁ m'₁, (Run.ofSchema .linked .standard [nodeTwist]).result = .ok g ∧
      nodeTwist.body.statements = [st] ∧ r.Emits c (.ofMethod nodeTwist) st.expand emitted ∧
      Matching catalog nodes (m 2 (.object 1)) m' ∧
      Step.sequence (Step.steps g.program (g.program.invoke 0 1) 0 emitted) f m' =
        .ok (.next, f'₁) m'₁ ∧
      Matching catalog nodes (m 7 (.object 0)) m'₁ := by
  intro catalog r c nodes node record m m' f
  let n := Expr.ident .nowhere "n"
  let next := Expr.select .nowhere n "next"
  let val := Expr.select .nowhere next "val"
  let seven := Expr.literal .nowhere (.int 7)
  let st : Stmt := .assign .nowhere [next, val] .assign [n, seven]
  have scope : nodeTwist.redirectScope catalog ⟨[nodeTwist]⟩ = .ok ⟨catalog, ["Node"]⟩ :=
    FuncDecl.redirectScope_own (e := catalog.entities.head (by decide)) rfl
      (by decide +kernel) (by decide +kernel)
  obtain ⟨g, ok⟩ := Run.exists_ok_of_scope scope (by decide +kernel) (by decide +kernel)
  have within : r.InMethod c ["n"] nodeTwist [nodeTwist] := .receiver scope rfl (by decide)
  obtain ⟨⟨emitted, _⟩, emits⟩ :=
    exists_ok (show (r.stmt c false st (.ofMethod nodeTwist)).isOk by decide +kernel)
  have assigns : st.AssignsFields c ["n"] [next, val] [n, seven] := by
    have hval : catalog.field? "Node" "val" = some nodeVal := by decide +kernel
    have hnext : catalog.field? "Node" "next" = some nodeNext := by decide +kernel
    have chain : n.Operand c (.pointer "Node") := .var rfl (Kind.of_type _)
    have longer : next.Operand c (.pointer "Node") := .field chain hnext node_fields.2
    refine ⟨⟨_, rfl⟩, rfl, List.forall_mem_cons.2 ⟨?_, List.forall_mem_singleton.2 ?_⟩,
      List.forall_mem_cons.2 ⟨?_, List.forall_mem_singleton.2 ?_⟩, by decide⟩
    · exact .field _ chain hnext node_fields.2
    · exact .field _ longer hval node_fields.1
    · exact ⟨_, chain⟩
    · exact ⟨_, .literal⟩
  have matching : Matching catalog nodes (m 2 (.object 1)) m' := by
    refine ⟨by simp [Node.Apart, nodes],
      List.forall_mem_cons.2 ⟨?_, List.forall_mem_singleton.2 ?_⟩⟩
    · refine ⟨by decide, by decide, List.nodup_singleton _, fun found field => ?_⟩
      obtain ⟨rfl, rfl, rfl⟩ | ⟨rfl, rfl, rfl⟩ := linked_field found field
      · exact ⟨.int 1, rfl, ⟨1, rfl⟩, rfl⟩
      · refine ⟨.object 1, rfl, .inr ⟨⟨"Node", 1, 1⟩, by simp [nodes], rfl, rfl⟩, ?_⟩
        exact List.forall_mem_cons.2
          ⟨⟨nofun, nofun⟩, List.forall_mem_singleton.2 ⟨fun _ => rfl, fun _ => rfl⟩⟩
    · refine ⟨by decide, by decide, List.nodup_nil, fun found field => ?_⟩
      obtain ⟨rfl, rfl, rfl⟩ | ⟨rfl, rfl, rfl⟩ := linked_field found field
      · exact ⟨.int 2, rfl, ⟨2, rfl⟩, rfl⟩
      · exact ⟨.nil, rfl, .inl rfl, fun _ _ => ⟨nofun, nofun⟩⟩
  have locals : Locals c nodes ["n"] f f m' :=
    .receiver (List.mem_cons_self ..) rfl rfl rfl ⟨rfl, rfl, by decide⟩
  have run : Step.exec g.program (g.program.invoke 0 1) 0 st f (m 2 (.object 1)) =
      .ok (.next, f) (m 7 (.object 0)) := rfl
  obtain ⟨-, -, f'₁, m'₁, ran, matched, -⟩ := Run.assignment_keeps_matching ok rfl
    (by unfold Catalog.KeysApart; decide +kernel) within assigns (.block emits) (by decide +kernel)
    matching locals (List.cons_ne_nil _ _) run
    (List.forall_mem_cons.2 ⟨nofun, List.forall_mem_singleton.2 nofun⟩) 0 0
  exact ⟨g, st, emitted, f'₁, m'₁, ok, rfl, .block emits, matching, ran, matched⟩

def sharedKey : Schema where
  entities :=
    [{ name := "Order"
       fields :=
         [{ name := "a", backingKey := some "k", type := "int" },
          { name := "b", backingKey := some "k", type := "int" }] }]

def orderNumber (name : String) : FieldInfo :=
  ⟨"Order", { name, backingKey := some "k", type := "int" }, .proxied (.primitive "int" "GetInt")⟩

-- The method `func (o *Order) Fill() { o.a = 2 }`.
def orderFill : FuncDecl where
  doc := none
  receiver := some ⟨"o", .pointer (.named "Order")⟩
  name := "Fill"
  typeParams := []
  params := []
  results := []
  body := .mk .nowhere [.assign .nowhere [.select .nowhere (.ident .nowhere "o") "a"] .assign
    [.literal .nowhere (.int 2)]]
  span := .nowhere

-- Where two fields share a key, a write of the one is read from the other as well, so that the graphs
-- match no longer.
theorem Run.matching_lost_with_shared_key :
    let catalog := (Catalog.build sharedKey .standard {}).value
    let r : RedirectContext := ⟨"Fill", ⟨catalog, ["Order"]⟩, .standard⟩
    let c : TypeContext := ⟨catalog, ⟨[orderFill]⟩, [⟨"o", some (.pointer (.named "Order"))⟩]⟩
    let nodes : List Node := [⟨"Order", 0, 0⟩]
    let m (a b : Int64) : Machine := {
      objects := #[⟨"Order", .ofList [("a", .int a), ("b", .int b)]⟩] }
    let m' : Machine := {
      records := #[⟨"", "orders", .ofList [("k", .int 1)], .empty⟩]
      objects := #[⟨"Order", .ofList [(recordField, .record 0)]⟩] }
    let f : Frame := ⟨[.ofList [("o", .object 0)]]⟩
    ∃ g st targets values emitted m'₁,
      (Run.ofSchema sharedKey .standard [orderFill]).result = .ok g ∧
      orderFill.body.statements = [st] ∧ r.InMethod c ["o"] orderFill [orderFill] ∧
      st.AssignsFields c ["o"] targets values ∧
      r.Emits c (.ofMethod orderFill) st.expand emitted ∧
      Matching catalog nodes (m 1 1) m' ∧ Locals c nodes ["o"] f f m' ∧
      Step.exec g.program (g.program.invoke 0 1) 0 st f (m 1 1) = .ok (.next, f) (m 2 1) ∧
      Step.sequence (Step.steps g.program (g.program.invoke 0 1) 0 emitted) f m' = .ok (.next, f) m'₁ ∧
      ¬Matching catalog nodes (m 2 1) m'₁ := by
  intro catalog r c nodes m m' f
  let o := Expr.ident .nowhere "o"
  let a := Expr.select .nowhere o "a"
  let two := Expr.literal .nowhere (.int 2)
  let st : Stmt := .assign .nowhere [a] .assign [two]
  have number (name : String) : Kind.int.Field (orderNumber name) := ⟨rfl, node_fields.1.declared⟩
  have foundA : catalog.field? "Order" "a" = some (orderNumber "a") := by decide +kernel
  have foundB : catalog.field? "Order" "b" = some (orderNumber "b") := by decide +kernel
  have scope : orderFill.redirectScope catalog ⟨[orderFill]⟩ = .ok ⟨catalog, ["Order"]⟩ :=
    FuncDecl.redirectScope_own (e := catalog.entities.head (by decide)) rfl
      (by decide +kernel) (by decide +kernel)
  obtain ⟨g, ok⟩ := Run.exists_ok_of_scope scope (by decide +kernel) (by decide +kernel)
  have within : r.InMethod c ["o"] orderFill [orderFill] := .receiver scope rfl (by decide)
  have chain : o.Operand c (.pointer "Order") := .var rfl (Kind.of_type _)
  have assigns : st.AssignsFields c ["o"] [a] [two] := by
    refine ⟨⟨_, rfl⟩, rfl, List.forall_mem_singleton.2 ?_, List.forall_mem_singleton.2 ?_, by decide⟩
    · exact .field _ chain foundA (number "a")
    · exact ⟨_, .literal⟩
  have emits : r.stmt c false st (.ofMethod orderFill) = .ok
      ([(orderNumber "a").write .standard o ⟨two, some .untypedInt⟩ .nowhere], .ofMethod orderFill) := by
    have resolved := chain.resolve_field within.covers (by decide) foundA (number "a") .nowhere rfl
    have target : r.targets c [a] = .ok [.field o (orderNumber "a")] :=
      ok_mapM.2 (.cons (ok_bind.2 ⟨_, rfl, ok_bind.2 ⟨_, resolved, rfl⟩⟩) .nil)
    have checked : r.checkWrites .nowhere [.field o (orderNumber "a")] [⟨two, some .untypedInt⟩] =
        .ok () := by decide +kernel
    rw [RedirectContext.stmt]
    refine Redirecting.ok_bind.2 ⟨{ mutators := [_] }, _, ?_, rfl⟩
    refine Redirecting.ok_bind.2 ⟨_, _, Redirecting.ok_lift.2 ⟨target, rfl⟩, ?_⟩
    refine Redirecting.ok_bind.2 ⟨_, _, Redirecting.ok_lift.2 ⟨rfl, rfl⟩, ?_⟩
    exact Redirecting.ok_bind.2 ⟨_, _, Redirecting.ok_lift.2 ⟨checked, rfl⟩, rfl⟩
  have matching : Matching catalog nodes (m 1 1) m' := by
    refine ⟨by simp [Node.Apart, nodes], List.forall_mem_singleton.2 ?_⟩
    refine ⟨by decide, by decide, List.nodup_nil, fun {k name info} found field => ?_⟩
    obtain ⟨e, he, -, hf⟩ := Catalog.mem_of_field? found
    obtain rfl := Catalog.name_of_field? found
    have all : ∀ e ∈ catalog.entities, ∀ info ∈ e.fields,
        info = orderNumber "a" ∨ info = orderNumber "b" := by decide +kernel
    rcases all e he info hf with rfl | rfl <;> obtain rfl := field.kind_eq (number _)
    · exact ⟨.int 1, rfl, ⟨1, rfl⟩, rfl⟩
    · exact ⟨.int 1, rfl, ⟨1, rfl⟩, rfl⟩
  have wraps : m'.Wraps 0 "Order" 0 := ⟨rfl, rfl, by decide⟩
  obtain ⟨m'₁, call, -, stored⟩ := (Run.servedBy ok 0 0).write foundA (number "a") wraps List.nodup_nil
    matching.apart ⟨2, rfl⟩ nofun (.int 2)
  refine ⟨g, st, _, _, _, m'₁, ok, rfl, within, assigns, .block emits, matching,
    .receiver (List.mem_cons_self ..) rfl rfl rfl wraps, rfl, ?_, fun after => ?_⟩
  · rw [Step.steps, Step.steps, Step.sequence_single]
    exact (number "a").write_runs rfl rfl call
  · -- The record has one number for both fields.
    obtain ⟨v, held, -, same⟩ := (after.matched _ (List.mem_singleton_self _)).fields foundB (number "b")
    obtain rfl : Value.int 1 = v := Option.some.inj held
    cases Value.int.inj (Option.some.inj (stored.symm.trans same))

end FieldAccess
