import FieldAccess.Generate.Accessor
import FieldAccess.Proofs.CodeRuns
import FieldAccess.Proofs.FreshNames

namespace FieldAccess

section

variable {p : Program} {call : CallHandler} {rounds : Nat} {site : AccessorSite}

namespace Exec

-- A list in which one item was replaced.
def setAt (items : List Value) (index v : Value) : Exec (List Value) := do
  let i ← orFail (.type .indexKind) index.int?
  match Value.position? i items.length with
  | none => fail (.indexOutOfRange i items.length)
  | some position => return items.set position v

-- The object that a field is to be set in.
def address (v : Value) (member : String) : Exec Nat :=
  match v with
  | .object address => return address
  | .nil => fail .nilDereference
  | v => fail (.noMember v member)

-- What a value becomes that a loop looks up and appends to a list.
def lookUpEach (p : Program) (f : Frame) (table : String) (v : Value) : Exec Value := do
  let found ← lookUpIn p f table v
  guard p f "append" (.type (.conversionCount "append"))
  return found

theorem lookUpEach_congr {f f' : Frame} {table : String}
    (same : ∀ x ∈ [table, "panic", "append"], f'.get? x = f.get? x) :
    lookUpEach p f' table = lookUpEach p f table := by
  funext v
  rw [lookUpEach, lookUpIn_congr (same table (by simp)) (same _ (by simp)),
    guard_congr (same _ (by simp)), lookUpEach]

end Exec

theorem Place.resolve_ident {f : Frame} {span : Span} {x : String} (named : x ≠ "_") :
    resolve p call f (Code.ident span x) = pure (.named x) := by
  rw [Code.ident, resolve, if_neg named]

theorem Place.resolve_item {f : Frame} {span : Span} {x : String} {i : Expr} {k : Value}
    (named : x ≠ "_") (value : Exec.eval p call f i = pure k) :
    resolve p call f (Code.item span (Code.ident span x) i) = pure (.item (.named x) k) := by
  rw [Code.item, resolve, if_pos (show (Code.ident span x).isPlaceLike = true from rfl),
    resolve_ident named, value]
  rfl

theorem Place.resolve_member {f : Frame} {span : Span} (base : Expr) (member : String) :
    resolve p call f (Code.member span base member) =
      Exec.eval p call f base >>= fun v => Exec.address v member >>= fun a =>
        pure (.field a member) := by
  rw [Code.member, resolve]
  refine bind_congr (m := Exec) fun v => ?_
  cases v <;> rfl

theorem Place.setItem_list (items : List Value) (i v : Value) :
    setItem (.slice items) i v = Exec.setAt items i v >>= fun l => pure (.slice l) := by
  simp only [setItem, accessItem, Exec.setAt, bind_assoc]
  refine bind_congr (m := Exec) fun n => ?_
  cases Value.position? n items.length <;> rfl

namespace Step

variable {s t : Table String} {ss : List (Table String)} {result table o list : String}
  {rest : List Stmt} {key : Expr} {k : Value} {items : List Value}

theorem sequence_giveUp {span : Span} (plain : p.Plain) (f : Frame) :
    sequence (steps p call rounds
      [.expr (Code.apply span "panic" [Code.text span "Unknown select value"])]) f =
      Exec.giveUp p f := by
  rw [steps, sequence_run, exec_expr]
  have panics : Exec.evalAll p call f
      (Code.apply span "panic" [Code.text span "Unknown select value"]) = Exec.giveUp p f :=
    Exec.callNamed_panic plain _
  rw [panics, Exec.giveUp_bind, Exec.giveUp_bind]

-- A lookup gives the result a name, or gives up.
theorem sequence_lookUp (plain : p.Plain) (value : Exec.eval p call ⟨s :: ss⟩ key = pure k)
    (named : result ≠ "_") (outer : result ≠ "panic") :
    sequence (steps p call rounds (site.lookUp result table key ++ rest)) ⟨s :: ss⟩ =
      Exec.lookUpIn p ⟨s :: ss⟩ table k >>= fun v =>
        sequence (steps p call rounds rest) ⟨(s.insert result v).insert "ok" (.bool true) :: ss⟩ := by
  rw [AccessorSite.lookUp, List.cons_append, List.cons_append, List.nil_append, steps, steps]
  simp only [sequence_run, exec_define_pair, exec_branch, bind_assoc, Code.evalAll_item,
    Code.eval_variable, value, pure_bind, Exec.lookUpIn]
  refine bind_congr (m := Exec) fun found => bind_congr (m := Exec) fun t => ?_
  have known (v : Value) (b : Bool) : Exec.check p call
      ((⟨s :: ss⟩ : Frame).define result v |>.define "ok" (.bool b)).push
      (.unary site.span .not (Code.ident site.span "ok")) = pure !b := by
    rw [Exec.check, Exec.eval, Code.eval_ident (v := .bool b)]
    · rfl
    · simp [Frame.define_cons, named, Frame.get?_cons]
  have outside (v : Value) (b : Bool) : (((⟨s :: ss⟩ : Frame).define result v |>.define "ok"
      (.bool b)).push.push).get? "panic" = (⟨s :: ss⟩ : Frame).get? "panic" := by
    simp [Frame.define_cons, named, Frame.get?_cons, Table.get?_insert, outer.symm]
  cases t with
  | map address =>
    simp only [Exec.itemAndPresence, bind_assoc, pure_bind]
    refine bind_congr (m := Exec) fun key => bind_congr (m := Exec) fun m => ?_
    cases (m.map address).get? key with
    | none =>
      simp only [Option.isSome_none, known, pure_bind, Bool.not_false, if_true,
        sequence_giveUp plain, Exec.giveUp_bind]
      exact Exec.giveUp_congr (outside ..)
    | some v =>
      simp only [Option.isSome_some, known, pure_bind, Bool.not_true, Bool.false_eq_true, if_false]
      rw [Frame.define_cons named, Frame.define_cons (by decide)]
      rfl
  | _ =>
    simp only [Exec.itemAndPresence, bind_assoc]
    exact bind_congr (m := Exec) fun _ => rfl

theorem answers_lookUp (plain : p.Plain) (value : Exec.eval p call ⟨s :: ss⟩ key = pure k)
    (named : result ≠ "_") (outer : result ≠ "panic") :
    answers p call rounds (site.lookUp result table key ++ rest) ⟨s :: ss⟩ =
      Exec.lookUpIn p ⟨s :: ss⟩ table k >>= fun v =>
        answers p call rounds rest ⟨(s.insert result v).insert "ok" (.bool true) :: ss⟩ := by
  rw [answers, sequence_lookUp plain value named outer, bind_assoc]
  rfl

variable (items) in
theorem sequence_extend (plain : p.Plain) {f : Frame} {v : Value}
    (extended : f.get? list = some (.slice items)) (element : f.get? result = some v)
    (named : list ≠ "_") :
    sequence (steps p call rounds [site.extend list result]) f =
      Exec.guard p f "append" (.type (.conversionCount "append")) >>= fun _ =>
        pure (.next, f.assign list (.slice (items ++ [v]))) := by
  have appended : Exec.eval p call f (Code.apply site.span "append"
      [Code.ident site.span list, Code.ident site.span result]) =
      Exec.guard p f "append" (.type (.conversionCount "append")) >>= fun _ =>
        pure (.slice (items ++ [v])) := by
    rw [Code.eval_apply]
    simp only [Exec.actions, Code.eval_ident extended, Code.eval_ident element,
      Exec.callNamed_append plain, bind_assoc, pure_bind]
    rfl
  rw [AccessorSite.extend, steps, sequence_run, exec_assign, Place.resolve_ident named, appended]
  simp only [pure_bind, bind_assoc, Place.write_named extended]
  rfl

-- A loop whose rounds only change what some variables hold is a fold over that.
theorem forEach_fold {α σ : Type} (round : α → Step Flow) (step : σ → α → Exec σ)
    (frame : σ → Frame)
    (h : ∀ a c, round a (frame c) = step c a >>= fun c' => pure (.next, frame c')) (as : List α)
    (c : σ) :
    forEach round as (frame c) = as.foldlM step c >>= fun c' => pure (.next, frame c') := by
  induction as generalizing c with
  | nil =>
    rw [List.foldlM_nil, pure_bind]
    rfl
  | cons a rest ih =>
    simp only [forEach_run, h, List.foldlM_cons, bind_assoc, pure_bind, ih]

theorem foldlM_append {α β : Type} (x : α → Exec β) (as : List α) (bs : List β) :
    as.foldlM (fun bs a => x a >>= fun b => pure (bs ++ [b])) bs =
      as.mapM x >>= fun new => pure (bs ++ new) := by
  induction as generalizing bs with
  | nil => simp
  | cons a rest ih =>
    simp only [List.foldlM_cons, List.mapM_cons, bind_assoc, pure_bind, ih, List.append_assoc,
      List.singleton_append]

-- What is done with each item of a list, without regard to its place.
theorem itemsOf_mapM {α : Type} (items : List Value) (x : Value → Exec α) :
    (itemsOf (.slice items) >>= fun pairs => pairs.mapM fun pair => x pair.2) = items.mapM x := by
  have values : (fun pair => x pair.2) ∘
      (fun entry : Value × Nat => ((.int (Int64.ofNat entry.2), entry.1) : Value × Value)) =
      x ∘ Prod.fst := rfl
  rw [itemsOf, pure_bind, List.mapM_map, values, ← List.mapM_map, List.zipIdx_map_fst]

-- One round of a loop that looks items up and appends what it finds.
theorem eachRound_lookUp (plain : p.Plain)
    (names : [result, o, list, "ok", "_", "panic", "append"].Nodup)
    (other : table ∉ [result, o, list, "ok"]) (item : Value × Value) (items : List Value) :
    eachRound p call rounds "_" (some o)
        (site.lookUp result table (Code.ident site.span o) ++ [site.extend list result]) item
        ⟨[t.insert list (.slice items)]⟩ =
      Exec.lookUpEach p ⟨[t]⟩ table item.2 >>= fun v =>
        pure (.next, ⟨[t.insert list (.slice (items ++ [v]))]⟩) := by
  simp only [List.nodup_cons, List.mem_cons, not_or, List.not_mem_nil, not_false_eq_true] at names other
  obtain ⟨⟨ro, rl, rk, rb, rp, ra, _⟩, ⟨ol, ok, ob, op, oa, _⟩, ⟨lk, lb, lp, la, _⟩, _⟩ := names
  obtain ⟨tr, t_o, tl, tk, _⟩ := other
  generalize ht : t.insert list (.slice items) = t'
  have held : t'.get? list = some (.slice items) := ht ▸ Table.get?_insert_self ..
  have outside {y : String} (hy : y ≠ list) : t'.get? y = t.get? y := by
    rw [← ht, Table.get?_insert, if_neg hy]
  have inner : ((⟨[t']⟩ : Frame).push.define "_" item.1).define o item.2 =
      ⟨[Table.empty.insert o item.2, t']⟩ := by
    rw [Frame.define_blank]
    exact Frame.define_cons ob ..
  have value : Exec.eval p call ⟨.empty :: [Table.empty.insert o item.2, t']⟩
      (Code.ident site.span o) = pure item.2 :=
    Code.eval_ident (by simp [Frame.get?_cons])
  have found : Exec.lookUpIn p ⟨.empty :: [Table.empty.insert o item.2, t']⟩ table item.2 =
      Exec.lookUpIn p ⟨[t]⟩ table item.2 :=
    Exec.lookUpIn_congr (by simp [Frame.get?_cons, Table.get?_insert, t_o, outside tl])
      (by simp [Frame.get?_cons, Table.get?_insert, Ne.symm op, outside (Ne.symm lp)])
  simp only [eachRound, Option.elim_some, inner]
  rw [show (⟨[Table.empty.insert o item.2, t']⟩ : Frame).push =
    ⟨.empty :: [Table.empty.insert o item.2, t']⟩ from rfl, sequence_lookUp plain value rb rp, found,
    Exec.lookUpEach]
  simp only [bind_assoc]
  refine bind_congr (m := Exec) fun v => ?_
  rw [sequence_extend items (v := v) plain]
  · simp only [bind_assoc, pure_bind]
    rw [Exec.guard_congr (f := ⟨[t]⟩)]
    · simp [Frame.assign, Frame.assignIn, Table.contains, Table.get?_insert, Ne.symm rl, Ne.symm ol,
        lk, Frame.pop, ← ht, Table.insert_insert]
    · simp [Frame.get?_cons, Table.get?_insert, Ne.symm ra, Ne.symm oa, outside (Ne.symm la)]
  · simp [Frame.get?_cons, Table.get?_insert, Ne.symm rl, Ne.symm ol, lk, held]
  · simp [Frame.get?_cons, Table.get?_insert, rk]
  · exact lb

-- A loop that looks every item up and appends what it finds.
variable (site) in
theorem exec_lookUpEach (plain : p.Plain)
    (names : [result, o, list, "ok", "_", "panic", "append"].Nodup)
    (other : table ∉ [result, o, list, "ok"]) {iterable : Expr} {v : Value}
    (value : Exec.eval p call ⟨[t.insert list (.slice [])]⟩ iterable = pure v) :
    exec p call rounds (Code.each site.span "_" (some o) iterable
        (site.lookUp result table (Code.ident site.span o) ++ [site.extend list result]))
        ⟨[t.insert list (.slice [])]⟩ =
      itemsOf v >>= fun pairs => pairs.mapM (fun pair => Exec.lookUpEach p ⟨[t]⟩ table pair.2) >>=
        fun vs => pure (.next, ⟨[t.insert list (.slice vs)]⟩) := by
  rw [exec_each, value, pure_bind]
  refine bind_congr (m := Exec) fun pairs => ?_
  have rounds := forEach_fold
    (eachRound p call rounds "_" (some o)
      (site.lookUp result table (Code.ident site.span o) ++ [site.extend list result]))
    (fun items pair => Exec.lookUpEach p ⟨[t]⟩ table pair.2 >>= fun v => pure (items ++ [v]))
    (fun items => ⟨[t.insert list (.slice items)]⟩)
    (fun pair items => by simp only [eachRound_lookUp plain names other, bind_assoc, pure_bind])
    pairs []
  rw [rounds, foldlM_append]
  simp only [bind_assoc, pure_bind, List.nil_append]

end Step

end

theorem Program.zero_pointer (p : Program) (type : TypeExpr) : p.zero (.pointer type) = .nil := by
  have basic : basicZero? (.pointer type) = none := by
    simp [basicZero?, TypeExpr.string, TypeExpr.bool, TypeExpr.isFloat, TypeExpr.isInteger]
  rw [zero]
  cases p.declarations.length <;> simp [zeroWithin, basic]

theorem Program.zero_string (p : Program) : p.zero .string = .str "" := by
  rw [zero]
  cases p.declarations.length <;> simp [zeroWithin, basicZero?, TypeExpr.string]

-- Names of tables start with a letter that no other variable starts with.
theorem Settings.table_not_mem {enum suffix : String} {names : List String}
    (h : ∀ x ∈ names, x.toList.head? ≠ some 'z') : "zz" ++ enum ++ suffix ∉ names :=
  fun mem => h _ mem (by simp)

-- Where the accessor and the mutator of a field come from under the standard settings.
def FieldInfo.site (info : FieldInfo) : AccessorSite :=
  ⟨info, .standard⟩

@[simp]
theorem FieldInfo.site_settings (info : FieldInfo) : info.site.settings = .standard := rfl

namespace AccessorSite

open Code

variable {p : Program} {call : CallHandler} {rounds : Nat} {info : FieldInfo} {f : Frame}
  {receiver v : Value} {depth : Nat}

-- The variables of an accessor before it runs.
def accessorFrame (receiver : Value) : Table String :=
  Table.empty.insert "p" receiver

-- The variables of a mutator before it runs.
def mutatorFrame (info : FieldInfo) (receiver v : Value) : Table String :=
  (accessorFrame receiver).insert info.site.param v

theorem param_ne {x : String} (h : x ∈ "p" :: localNames) : info.site.param ≠ x :=
  fun e => Naming.unique_not_mem _ _ (e ▸ h)

theorem invoke_accessorOf (result : TypeExpr) (body : List Stmt) :
    p.invoke rounds (depth + 1) (info.site.accessorOf result body) (some receiver) [] =
      Step.answers p (p.invoke rounds depth) rounds body ⟨[accessorFrame receiver]⟩ :=
  Program.invoke_succ rfl

theorem invoke_mutatorOf (type : TypeExpr) (body : List Stmt) (v : Value) :
    p.invoke rounds (depth + 1) (info.site.mutatorOf type body) (some receiver) [v] =
      Step.answers p (p.invoke rounds depth) rounds body ⟨[mutatorFrame info receiver v]⟩ :=
  Program.invoke_succ rfl

variable (info receiver) in
theorem evalAll_keyed (vs : List Value) {method : String} {args : List Expr}
    (known : f.get? "p" = some receiver) (given : Exec.all (Exec.actions p call f args) = pure vs) :
    Exec.evalAll p call f (info.site.keyed method args) =
      Exec.callMethod p call receiver method (.str info.key :: vs) := by
  rw [keyed, evalAll_method, AccessorSite.receiver, show info.site.settings.receiver = "p" from rfl,
    eval_ident known, pure_bind]
  simp only [Exec.actions, Exec.all, given, pure_bind]
  rfl

variable (info receiver) in
theorem eval_keyed (vs : List Value) {method : String} {args : List Expr}
    (known : f.get? "p" = some receiver) (given : Exec.all (Exec.actions p call f args) = pure vs) :
    Exec.eval p call f (info.site.keyed method args) =
      Exec.callMethod p call receiver method (.str info.key :: vs) >>= Exec.oneResult := by
  rw [← evalAll_keyed info receiver vs known given]
  rfl

theorem get?_accessorFrame : (⟨[accessorFrame receiver]⟩ : Frame).get? "p" = some receiver := rfl

theorem get?_mutatorFrame :
    (⟨[mutatorFrame info receiver v]⟩ : Frame).get? "p" = some receiver := by
  have other : "p" ≠ info.site.param := (param_ne (List.mem_cons_self ..)).symm
  simp [mutatorFrame, accessorFrame, Frame.get?_cons, Table.get?_insert, other]

theorem get?_mutatorFrame_param :
    (⟨[mutatorFrame info receiver v]⟩ : Frame).get? info.site.param = some v := by
  simp [mutatorFrame, Frame.get?_cons]

theorem eval_value :
    Exec.eval p call ⟨[mutatorFrame info receiver v]⟩ info.site.value = pure v :=
  eval_ident get?_mutatorFrame_param

theorem run_primitive_accessor (getter : String) (type : TypeExpr) :
    p.invoke rounds (depth + 1) (info.site.primitive getter type).accessor (some receiver) [] =
      Exec.callMethod p (p.invoke rounds depth) receiver getter [.str info.key] := by
  rw [primitive, invoke_accessorOf, Step.answers_answer,
    evalAll_keyed info receiver [] get?_accessorFrame]
  rfl

theorem run_primitive_mutator (getter : String) (type : TypeExpr) (v : Value) :
    p.invoke rounds (depth + 1) (info.site.primitive getter type).mutator (some receiver) [v] =
      Exec.callMethod p (p.invoke rounds depth) receiver "Set" [.str info.key, v] >>= fun _ =>
        pure [] := by
  rw [primitive, invoke_mutatorOf, Step.answers_expr, evalAll_keyed info receiver [v] get?_mutatorFrame]
  · rfl
  · simp only [Exec.actions, Exec.all, eval_value, pure_bind]

theorem run_singleEnum_accessor (plain : p.Plain) (enum : String) :
    p.invoke rounds (depth + 1) (info.site.singleEnum enum).accessor (some receiver) [] =
      Exec.callMethod p (p.invoke rounds depth) receiver "GetString" [.str info.key] >>=
        Exec.oneResult >>= fun option =>
          Exec.lookUpIn p ⟨[accessorFrame receiver]⟩ (Settings.standard.nameTable enum) option >>=
            fun i => pure [i] := by
  have table : Settings.standard.nameTable enum ∉ ["option"] := Settings.table_not_mem (by decide)
  rw [singleEnum, invoke_accessorOf]
  simp only [List.cons_append]
  rw [Step.answers_define, eval_keyed info receiver [] get?_accessorFrame]
  · refine bind_congr (m := Exec) fun option => ?_
    rw [Frame.define_cons (by decide), Step.answers_lookUp plain (k := option) _ (by decide)
      (by decide), Exec.lookUpIn_congr (f := ⟨[accessorFrame receiver]⟩)]
    · refine bind_congr (m := Exec) fun i => ?_
      rw [Step.answers_answer, evalAll_ident (v := i)]
      simp [Frame.get?_cons, Table.get?_insert]
    · simp [Frame.get?_cons, Table.get?_insert, List.mem_singleton.not.1 table]
    · simp [Frame.get?_cons, Table.get?_insert]
    · exact eval_ident (by simp [Frame.get?_cons])
  · rfl

theorem run_singleEnum_mutator (plain : p.Plain) (enum : String) (v : Value) :
    p.invoke rounds (depth + 1) (info.site.singleEnum enum).mutator (some receiver) [v] =
      Exec.lookUpIn p ⟨[mutatorFrame info receiver v]⟩ (Settings.standard.ordinalTable enum) v >>=
        fun label => Exec.callMethod p (p.invoke rounds depth) receiver "Set"
          [.str info.key, label] >>= fun _ => pure [] := by
  have other : "p" ≠ info.site.param := (param_ne (List.mem_cons_self ..)).symm
  rw [singleEnum, invoke_mutatorOf, Step.answers_lookUp plain eval_value (by decide) (by decide)]
  refine bind_congr (m := Exec) fun label => ?_
  rw [Step.answers_expr, evalAll_keyed info receiver [label]]
  · rfl
  · simp [mutatorFrame, accessorFrame, Frame.get?_cons, Table.get?_insert, other]
  · simp only [Exec.actions, Exec.all]
    rw [eval_ident (v := label)]
    · simp
    · simp [Frame.get?_cons, Table.get?_insert]

theorem run_multiEnum_accessor (plain : p.Plain) (enum : String) :
    p.invoke rounds (depth + 1) (info.site.multiEnum enum).accessor (some receiver) [] =
      Exec.callMethod p (p.invoke rounds depth) receiver "GetStringSlice" [.str info.key] >>=
        Exec.oneResult >>= fun options =>
          Exec.guard p ⟨[accessorFrame receiver]⟩ "make" (.type (.conversionCount "make")) >>=
            fun _ => Step.itemsOf options >>= fun pairs =>
              pairs.mapM (fun pair => Exec.lookUpEach p ⟨[accessorFrame receiver]⟩
                (Settings.standard.nameTable enum) pair.2) >>= fun is => pure [.slice is] := by
  have table : Settings.standard.nameTable enum ∉ ["options"] := Settings.table_not_mem (by decide)
  rw [multiEnum, invoke_accessorOf, Step.answers_define, eval_keyed info receiver [] get?_accessorFrame]
  · refine bind_congr (m := Exec) fun options => ?_
    rw [Frame.define_cons (by decide), Step.answers_define, eval_make plain, eval_number]
    simp only [bind_assoc, pure_bind]
    rw [Exec.guard_congr (f := ⟨[accessorFrame receiver]⟩)]
    · refine bind_congr (m := Exec) fun _ => ?_
      rw [Frame.define_cons (by decide), Step.answers_cons,
        show List.replicate _ _ = ([] : List Value) from rfl,
        Step.exec_lookUpEach info.site (v := options) plain (by decide)]
      · simp only [bind_assoc, pure_bind]
        refine bind_congr (m := Exec) fun pairs => ?_
        rw [Exec.lookUpEach_congr (f := ⟨[accessorFrame receiver]⟩)]
        · refine bind_congr (m := Exec) fun is => ?_
          rw [Step.answers_answer, evalAll_ident (v := .slice is)]
          simp [Frame.get?_cons]
        · simp [Frame.get?_cons, Table.get?_insert, List.mem_singleton.not.1 table]
      · exact Settings.table_not_mem (by decide)
      · exact eval_ident (by simp [Frame.get?_cons, Table.get?_insert])
    · simp [Frame.get?_cons, Table.get?_insert]
  · rfl

theorem run_multiEnum_mutator (plain : p.Plain) (enum : String) (v : Value) :
    p.invoke rounds (depth + 1) (info.site.multiEnum enum).mutator (some receiver) [v] =
      Exec.guard p ⟨[mutatorFrame info receiver v]⟩ "make" (.type (.conversionCount "make")) >>=
        fun _ => Step.itemsOf v >>= fun pairs =>
          pairs.mapM (fun pair => Exec.lookUpEach p ⟨[mutatorFrame info receiver v]⟩
            (Settings.standard.ordinalTable enum) pair.2) >>= fun labels =>
              Exec.callMethod p (p.invoke rounds depth) receiver "Set"
                [.str info.key, .slice labels] >>= fun _ => pure [] := by
  have other : "p" ≠ info.site.param := (param_ne (List.mem_cons_self ..)).symm
  have param : info.site.param ≠ "labels" := param_ne (by decide)
  rw [multiEnum, invoke_mutatorOf, Step.answers_define, eval_make plain, eval_number]
  simp only [bind_assoc, pure_bind]
  refine bind_congr (m := Exec) fun _ => ?_
  rw [Frame.define_cons (by decide), Step.answers_cons,
    show List.replicate _ _ = ([] : List Value) from rfl,
    Step.exec_lookUpEach info.site (v := v) plain (by decide)]
  · simp only [bind_assoc, pure_bind]
    refine bind_congr (m := Exec) fun pairs => bind_congr (m := Exec) fun labels => ?_
    rw [Step.answers_expr, evalAll_keyed info receiver [.slice labels]]
    · rfl
    · simp [mutatorFrame, accessorFrame, Frame.get?_cons, Table.get?_insert, other]
    · simp only [Exec.actions, Exec.all]
      rw [eval_ident (v := .slice labels)]
      · simp
      · simp [Frame.get?_cons]
  · exact Settings.table_not_mem (by decide)
  · exact eval_ident (by simp [mutatorFrame, Frame.get?_cons, Table.get?_insert, param])

-- A wrapper that holds a record, or what stands for one.
def wrap (target : String) (record : Value) : Exec Value :=
  Exec.ofState (Machine.allocObject ⟨target, .ofList [(recordField, record)]⟩)

theorem eval_fresh (span : Span) (target : String) :
    Exec.eval p call f (fresh span (.named target)) = Exec.structLiteral p (.named target) [] := by
  rw [fresh, Exec.eval, Exec.eval]
  · exact bind_pure _
  · nofun
  · nofun

-- A new wrapper whose record is set is a wrapper that holds the record.
theorem structLiteral_wrap (target : String) (record : Value) {α : Type} (k : Value → Exec α) :
    (Exec.structLiteral p (.named target) [] >>= fun o => Exec.address o "Record" >>= fun a =>
      modify (·.setField a "Record" record) >>= fun _ => k o) = wrap target record >>= k := by
  have blank : ∃ start : Table String,
      start.insert recordField record = .ofList [(recordField, record)] ∧
      Exec.structLiteral p (.named target) [] = Exec.ofState (Machine.allocObject ⟨target, start⟩) := by
    refine ⟨if p.isWrapper target then .ofList [(recordField, .nil)] else .empty, ?_, rfl⟩
    split <;> rfl
  obtain ⟨start, held, literal⟩ := blank
  rw [literal]
  funext m
  change k (.object m.objects.size)
    (Machine.setField { m with objects := m.objects.push ⟨target, start⟩ } m.objects.size recordField
      record) = k (.object m.objects.size)
      { m with objects := m.objects.push ⟨target, .ofList [(recordField, record)]⟩ }
  congr 1
  simp only [Machine.setField, Machine.setObject, Machine.object, Array.getElem?_push_size,
    Option.getD_some, held, Machine.mk.injEq, true_and, and_true]
  exact Array.ext' (by simp)

-- Makes a variable of an outer scope a wrapper of what another holds.
theorem sequence_wrap {span : Span} {t inner : Table String} {target : String} (rel : Value)
    (known : inner.get? "rel" = some rel) (other : inner.get? "proxy" = none)
    (declared : t.contains "proxy" = true) :
    Step.sequence (Step.steps p call rounds
      [assign span (ident span "proxy") (fresh span (.named target)),
       assign span (member span (ident span "proxy") "Record") (ident span "rel")])
      ⟨[.empty, inner, t]⟩ =
      wrap target rel >>= fun o => pure (.next, ⟨[.empty, inner, t.insert "proxy" o]⟩) := by
  obtain ⟨c, held⟩ := Option.isSome_iff_exists.1 declared
  have assigned (o : Value) : (⟨[.empty, inner, t]⟩ : Frame).assign "proxy" o =
      ⟨[.empty, inner, t.insert "proxy" o]⟩ := by
    simp [Frame.assign, Frame.assignIn, Table.contains, other, held]
  have first : (⟨[.empty, inner, t]⟩ : Frame).get? "proxy" = some c := by
    simp [Frame.get?_cons, other, held]
  have value (o : Value) : Exec.eval p call ⟨[.empty, inner, t.insert "proxy" o]⟩ (ident span "proxy") =
      pure o := eval_ident (by simp [Frame.get?_cons, other])
  have record (o : Value) : Exec.eval p call ⟨[.empty, inner, t.insert "proxy" o]⟩ (ident span "rel") =
      pure rel := eval_ident (by simp [Frame.get?_cons, known])
  rw [← structLiteral_wrap (p := p), Step.steps, Step.sequence_run, Step.exec_assign,
    Place.resolve_ident (by decide), eval_fresh]
  simp only [pure_bind, bind_assoc, Place.write_named first, assigned]
  refine bind_congr (m := Exec) fun o => ?_
  rw [Step.steps, Step.sequence_run, Step.exec_assign, Place.resolve_member, value o, record o]
  simp only [bind_assoc, pure_bind, Place.write_field]
  rfl

theorem run_singleRelation_accessor (target : String) :
    p.invoke rounds (depth + 1) (info.site.singleRelation target).accessor (some receiver) [] =
      Exec.callMethod p (p.invoke rounds depth) receiver "ExpandedOne" [.str info.key] >>=
        Exec.oneResult >>= fun rel =>
          if rel.equal .nil then pure [.nil]
          else wrap target rel >>= fun proxy => pure [proxy] := by
  rw [singleRelation, invoke_accessorOf, Step.answers_cons, Step.exec_var, pure_bind]
  dsimp only
  rw [Program.zero_pointer,
    Frame.define_cons (by decide), Step.answers_cons, Step.exec_branch_init, Step.exec_define,
    eval_keyed info receiver []]
  · simp only [bind_assoc, pure_bind]
    refine bind_congr (m := Exec) fun results => bind_congr (m := Exec) fun rel => ?_
    rw [show (⟨[(accessorFrame receiver).insert "proxy" .nil]⟩ : Frame).push.define "rel" rel =
      ⟨[Table.empty.insert "rel" rel, (accessorFrame receiver).insert "proxy" .nil]⟩ from rfl]
    have check : Exec.check p (p.invoke rounds depth)
        ⟨[Table.empty.insert "rel" rel, (accessorFrame receiver).insert "proxy" .nil]⟩
        (.binary info.site.span .ne (ident info.site.span "rel") (nil info.site.span)) =
        pure !(rel.equal .nil) := by
      rw [Exec.check, Exec.eval, eval_ident (v := rel), eval_nil]
      · rfl
      · simp [Frame.get?_cons]
      · simp
      · simp
    rw [check, pure_bind]
    cases rel.equal .nil with
    | true =>
      simp only [Bool.not_true, Bool.false_eq_true, if_false, if_true, pure_bind]
      rw [Step.answers_answer, evalAll_ident (v := .nil)]
      simp [Frame.pop, Frame.get?_cons]
    | false =>
      simp only [Bool.not_false, if_true, Bool.false_eq_true, if_false]
      rw [show (⟨[Table.empty.insert "rel" rel, (accessorFrame receiver).insert "proxy" .nil]⟩ :
        Frame).push = ⟨[.empty, Table.empty.insert "rel" rel,
          (accessorFrame receiver).insert "proxy" .nil]⟩ from rfl, sequence_wrap rel]
      · simp only [bind_assoc, pure_bind, Table.insert_insert]
        refine bind_congr (m := Exec) fun proxy => ?_
        rw [Step.answers_answer, evalAll_ident (v := proxy)]
        simp [Frame.pop, Frame.get?_cons]
      · simp
      · simp [Table.get?_insert]
      · simp [Table.contains]
  · rfl
  · rfl

-- Sets what the relation of a field expands to.
def storeExpanded (p : Program) (call : CallHandler) (info : FieldInfo) (receiver : Value)
    (records : Exec Value) : Exec (List Value) := do
  let e ← Exec.callMethod p call receiver "Expand" [] >>= Exec.oneResult
  let e' ← Place.setItem e (.str info.key) (← records)
  let _ ← Exec.callMethod p call receiver "SetExpand" [e']
  return []

-- Sets the data and the expansion of a relation.
def storeRelation (p : Program) (call : CallHandler) (info : FieldInfo) (receiver : Value)
    (ids records : Exec Value) : Exec (List Value) := do
  let record ← Exec.select receiver "Record"
  let _ ← Exec.callMethod p call record "Set" [.str info.key, ← ids]
  storeExpanded p call info receiver records

theorem answers_storeExpansion {t : Table String} {records : Expr} {x : Exec Value}
    (known : t.get? "p" = some receiver)
    (value : ∀ e, Exec.eval p call ⟨[t.insert "e" e]⟩ records = x) :
    Step.answers p call rounds (info.site.storeExpansion records) ⟨[t]⟩ =
      storeExpanded p call info receiver x := by
  have self (e : Value) : Exec.eval p call ⟨[t.insert "e" e]⟩ (ident info.site.span "e") = pure e :=
    eval_ident (by simp [Frame.get?_cons])
  have known' (e : Value) : (⟨[t.insert "e" e]⟩ : Frame).get? "p" = some receiver := by
    simp [Frame.get?_cons, Table.get?_insert, known]
  rw [storeExpansion, Step.answers_define, eval_method, evalAll_method, AccessorSite.receiver,
    show info.site.settings.receiver = "p" from rfl, eval_ident (v := receiver)]
  · simp only [pure_bind, Exec.actions, Exec.all, storeExpanded]
    refine bind_congr (m := Exec) fun e => ?_
    rw [Frame.define_cons (by decide), Step.answers_assign,
      Place.resolve_item (by decide) (k := .str info.key) rfl, pure_bind, value]
    refine bind_congr (m := Exec) fun v => ?_
    have held : (⟨[t.insert "e" e]⟩ : Frame).get? "e" = some e := by simp [Frame.get?_cons]
    rw [Place.write_item held]
    simp only [bind_assoc, pure_bind]
    refine bind_congr (m := Exec) fun e' => ?_
    rw [show (⟨[t.insert "e" e]⟩ : Frame).assign "e" e' = ⟨[t.insert "e" e']⟩ by
        simp [Frame.assign, Frame.assignIn, Table.contains, Table.insert_insert],
      Step.answers_expr, evalAll_method, eval_ident (known' e')]
    simp only [Exec.actions, Exec.all, self, pure_bind]
    rfl
  · simp [Frame.get?_cons, known]

theorem answers_storeRelation {t : Table String} {ids records : Expr} {x y : Exec Value}
    (known : t.get? "p" = some receiver) (value : Exec.eval p call ⟨[t]⟩ ids = x)
    (value' : ∀ e, Exec.eval p call ⟨[t.insert "e" e]⟩ records = y) :
    Step.answers p call rounds (info.site.store ids :: info.site.storeExpansion records) ⟨[t]⟩ =
      storeRelation p call info receiver x y := by
  rw [store, Step.answers_expr, evalAll_method, eval_member, AccessorSite.receiver,
    show info.site.settings.receiver = "p" from rfl, eval_ident (v := receiver)]
  · simp only [pure_bind, bind_assoc, Exec.actions, Exec.all, value, key, eval_text, storeRelation]
    exact bind_congr (m := Exec) fun record => bind_congr (m := Exec) fun id =>
      bind_congr (m := Exec) fun _ => answers_storeExpansion known value'
  · simp [Frame.get?_cons, known]

theorem run_singleRelation_mutator (target : String) (v : Value) :
    p.invoke rounds (depth + 1) (info.site.singleRelation target).mutator (some receiver) [v] =
      storeRelation p (p.invoke rounds depth) info receiver (Exec.select v "Id")
        (Exec.select v "Record") := by
  have param : info.site.param ≠ "e" := param_ne (by decide)
  rw [singleRelation, invoke_mutatorOf]
  refine answers_storeRelation ?_ ?_ fun e => ?_
  · simpa [Frame.get?_cons] using
      (get?_mutatorFrame : (⟨[mutatorFrame info receiver v]⟩ : Frame).get? "p" = some receiver)
  · rw [eval_member, eval_value, pure_bind]
  · rw [eval_member, AccessorSite.value, eval_ident (v := v), pure_bind]
    simp [mutatorFrame, Frame.get?_cons, Table.get?_insert, param]

-- What a round does for an item of a relation's list of wrappers.
def splitWrapper (lists : List Value × List Value) (pair : Value × Value) :
    Exec (List Value × List Value) := do
  let records ← Exec.setAt lists.1 pair.1 (← Exec.select pair.2 "Record")
  let ids ← Exec.setAt lists.2 pair.1 (← Exec.select pair.2 "Id")
  return (records, ids)

-- The variables of the mutator of a relation while it fills the lists.
def listFrame (t : Table String) (lists : List Value × List Value) : Frame :=
  ⟨[(t.insert "records" (.slice lists.1)).insert "ids" (.slice lists.2)]⟩

-- Sets an item of a list that a variable holds.
theorem sequence_setItem {span : Span} {list i : String} {items : List Value} {k : Value} {e : Expr}
    {x : Exec Value} {rest : List Stmt} (held : f.get? list = some (.slice items))
    (index : f.get? i = some k) (value : Exec.eval p call f e = x) (named : list ≠ "_") :
    Step.sequence (Step.steps p call rounds
        (assign span (item span (ident span list) (ident span i)) e :: rest)) f =
      x >>= fun v => Exec.setAt items k v >>= fun items' =>
        Step.sequence (Step.steps p call rounds rest) (f.assign list (.slice items')) := by
  rw [Step.steps, Step.sequence_run, Step.exec_assign, Place.resolve_item named (eval_ident index),
    value]
  simp only [pure_bind, bind_assoc, Place.write_item held, Place.setItem_list]

variable (call rounds) in
theorem eachRound_splitWrapper (span : Span) (t : Table String) (pair : Value × Value)
    (lists : List Value × List Value) :
    Step.eachRound p call rounds "i" (some "r")
      [assign span (item span (ident span "records") (ident span "i"))
        (member span (ident span "r") "Record"),
       assign span (item span (ident span "ids") (ident span "i"))
        (member span (ident span "r") "Id")] pair (listFrame t lists) =
      splitWrapper lists pair >>= fun lists' => pure (.next, listFrame t lists') := by
  -- The frame in the body of the loop, whatever the lists are.
  let body (lists : List Value × List Value) : Frame :=
    ⟨[.empty, (Table.empty.insert "i" pair.1).insert "r" pair.2,
      (t.insert "records" (.slice lists.1)).insert "ids" (.slice lists.2)]⟩
  have index (lists) : (body lists).get? "i" = some pair.1 := by
    simp [body, Frame.get?_cons, Table.get?_insert]
  have records (lists) : (body lists).get? "records" = some (.slice lists.1) := by
    simp [body, Frame.get?_cons, Table.get?_insert]
  have ids (lists) : (body lists).get? "ids" = some (.slice lists.2) := by
    simp [body, Frame.get?_cons, Table.get?_insert]
  have wrapper (lists) (name : String) : Exec.eval p call (body lists)
      (member span (ident span "r") name) = Exec.select pair.2 name := by
    rw [eval_member, eval_ident (v := pair.2), pure_bind]
    simp [body, Frame.get?_cons, Table.get?_insert]
  have setRecords (l : List Value) :
      (body lists).assign "records" (.slice l) = body (l, lists.2) := by
    simp [body, Frame.assign, Frame.assignIn, Table.contains, Table.get?_insert,
      Table.insert_insert_other]
  have setIds (lists : List Value × List Value) (l : List Value) :
      (body lists).assign "ids" (.slice l) = body (lists.1, l) := by
    simp [body, Frame.assign, Frame.assignIn, Table.contains, Table.get?_insert,
      Table.insert_insert]
  change (Step.sequence _ (body lists) >>= fun r => pure (r.1, r.2.pop.pop)) = _
  rw [sequence_setItem (records lists) (index lists) (wrapper lists "Record") (by decide),
    splitWrapper]
  simp only [bind_assoc, setRecords]
  refine bind_congr (m := Exec) fun record => bind_congr (m := Exec) fun l => ?_
  rw [sequence_setItem (ids _) (index _) (wrapper _ "Id") (by decide)]
  simp only [bind_assoc, setIds]
  rfl

theorem run_multiRelation_mutator (plain : p.Plain) (target : String) (v : Value) :
    p.invoke rounds (depth + 1) (info.site.multiRelation target).mutator (some receiver) [v] = (do
        let f : Frame := ⟨[mutatorFrame info receiver v]⟩
        Exec.guard p f "make" (.type (.conversionCount "make"))
        let count ← Exec.lengthIn p f v
        Exec.guard p f "make" (.type (.conversionCount "make"))
        let count' ← Exec.lengthIn p f v
        let lists ← (← Step.itemsOf v).foldlM splitWrapper
          (List.replicate (count.int?.getD 0).toInt.toNat .nil,
           List.replicate (count'.int?.getD 0).toInt.toNat (.str ""))
        storeRelation p (p.invoke rounds depth) info receiver (pure (.slice lists.2))
          (pure (.slice lists.1))) := by
  have other : "p" ≠ info.site.param := (param_ne (List.mem_cons_self ..)).symm
  have ne {x : String} (h : x ∈ "p" :: localNames) : info.site.param ≠ x := param_ne h
  rw [multiRelation, invoke_mutatorOf]
  simp only [List.cons_append, List.nil_append]
  rw [Step.answers_define, eval_make plain, length, eval_length plain eval_value]
  simp only [bind_assoc, pure_bind]
  refine bind_congr (m := Exec) fun _ => bind_congr (m := Exec) fun count => ?_
  rw [Program.zero_pointer, Frame.define_cons (by decide), Step.answers_define, eval_make plain,
    eval_length (v := v) plain]
  rw [Exec.guard_congr (f := ⟨[mutatorFrame info receiver v]⟩),
    Exec.lengthIn_congr (f := ⟨[mutatorFrame info receiver v]⟩)]
  · simp only [bind_assoc, pure_bind]
    refine bind_congr (m := Exec) fun _ => bind_congr (m := Exec) fun count' => ?_
    rw [Program.zero_string, Frame.define_cons (by decide), Step.answers_cons, Step.exec_each]
    generalize List.replicate _ Value.nil = records
    generalize List.replicate _ (Value.str "") = ids
    rw [AccessorSite.value, eval_ident (v := v)]
    · simp only [bind_assoc, pure_bind]
      refine bind_congr (m := Exec) fun pairs => ?_
      have filled := Step.forEach_fold _ _ _
        (eachRound_splitWrapper (p := p) (p.invoke rounds depth) rounds info.site.span
          (mutatorFrame info receiver v)) pairs (records, ids)
      rw [listFrame] at filled
      rw [filled]
      simp only [bind_assoc, pure_bind]
      refine bind_congr (m := Exec) fun lists => answers_storeRelation ?_ ?_ fun e => ?_
      · simp [mutatorFrame, accessorFrame, Table.get?_insert, other]
      · exact eval_ident (by simp [Frame.get?_cons])
      · exact eval_ident (by simp [Frame.get?_cons, Table.get?_insert])
    · simp [mutatorFrame, Frame.get?_cons, Table.get?_insert, ne (show "records" ∈ _ by decide),
        ne (show "ids" ∈ _ by decide)]
  · simp [Frame.get?_cons, Table.get?_insert]
  · simp [Frame.get?_cons, Table.get?_insert]
  · refine eval_ident ?_
    simp [mutatorFrame, Frame.get?_cons, Table.get?_insert, ne (show "records" ∈ _ by decide)]

-- What a round does for an item of the list that a relation expands to.
def wrapItem (p : Program) (target : String) (rels : Value) (proxies : List Value)
    (pair : Value × Value) : Exec (List Value) := do
  let blank ← Exec.structLiteral p (.named target) []
  let proxies ← Exec.setAt proxies pair.1 blank
  let a ← Exec.address (← Exec.item (.slice proxies) pair.1) "Record"
  let rel ← Exec.item rels pair.1
  modify (·.setField a "Record" rel)
  return proxies

theorem eachRound_wrapItem {span : Span} {t : Table String} {target : String} {rels : Value}
    (known : t.get? "rels" = some rels) (pair : Value × Value) (proxies : List Value) :
    Step.eachRound p call rounds "i" none
      [assign span (item span (ident span "proxies") (ident span "i")) (fresh span (.named target)),
       assign span (member span (item span (ident span "proxies") (ident span "i")) "Record")
        (item span (ident span "rels") (ident span "i"))] pair
      ⟨[t.insert "proxies" (.slice proxies)]⟩ =
      wrapItem p target rels proxies pair >>= fun proxies' =>
        pure (.next, ⟨[t.insert "proxies" (.slice proxies')]⟩) := by
  -- The frame in the body of the loop, whatever the list is.
  let body (proxies : List Value) : Frame :=
    ⟨[.empty, Table.empty.insert "i" pair.1, t.insert "proxies" (.slice proxies)]⟩
  have index (l) : Exec.eval p call (body l) (ident span "i") = pure pair.1 :=
    eval_ident (by simp [body, Frame.get?_cons])
  have list (l) : (body l).get? "proxies" = some (.slice l) := by
    simp [body, Frame.get?_cons, Table.get?_insert]
  have source (l) : Exec.eval p call (body l) (ident span "rels") = pure rels :=
    eval_ident (by simp [body, Frame.get?_cons, Table.get?_insert, known])
  have setList (l l' : List Value) : (body l).assign "proxies" (.slice l') = body l' := by
    simp [body, Frame.assign, Frame.assignIn, Table.contains, Table.get?_insert,
      Table.insert_insert]
  change (Step.sequence _ (body proxies) >>= fun r => pure (r.1, r.2.pop.pop)) = _
  rw [Step.steps, Step.sequence_run, Step.exec_assign, Place.resolve_item (by decide) (index _),
    eval_fresh, wrapItem]
  simp only [pure_bind, bind_assoc, Place.write_item (list proxies), Place.setItem_list, setList]
  refine bind_congr (m := Exec) fun o => bind_congr (m := Exec) fun l => ?_
  rw [Step.steps, Step.sequence_run, Step.exec_assign, Place.resolve_member]
  simp only [eval_item, index, source, eval_ident (list l), pure_bind, bind_assoc,
    Place.write_field]
  rfl

theorem run_multiRelation_accessor (plain : p.Plain) (target : String) :
    p.invoke rounds (depth + 1) (info.site.multiRelation target).accessor (some receiver) [] = (do
        let rels ← Exec.callMethod p (p.invoke rounds depth) receiver "ExpandedAll"
          [.str info.key] >>= Exec.oneResult
        let f : Frame := ⟨[accessorFrame receiver]⟩
        Exec.guard p f "make" (.type (.conversionCount "make"))
        let count ← Exec.lengthIn p f rels
        let proxies ← (← Step.itemsOf rels).foldlM (wrapItem p target rels)
          (List.replicate (count.int?.getD 0).toInt.toNat .nil)
        return [.slice proxies]) := by
  rw [multiRelation, invoke_accessorOf, Step.answers_define,
    eval_keyed info receiver [] get?_accessorFrame]
  · refine bind_congr (m := Exec) fun rels => ?_
    rw [Frame.define_cons (by decide), Step.answers_define, eval_make plain, length,
      eval_length (v := rels) plain]
    · rw [Exec.guard_congr (f := ⟨[accessorFrame receiver]⟩),
        Exec.lengthIn_congr (f := ⟨[accessorFrame receiver]⟩)]
      · simp only [bind_assoc, pure_bind]
        refine bind_congr (m := Exec) fun _ => bind_congr (m := Exec) fun count => ?_
        rw [Program.zero_pointer, Frame.define_cons (by decide), Step.answers_cons, Step.exec_each,
          eval_ident (v := rels)]
        · simp only [bind_assoc, pure_bind]
          refine bind_congr (m := Exec) fun pairs => ?_
          rw [Step.forEach_fold _ _ _
            (eachRound_wrapItem (show Table.get? _ "rels" = some rels by simp))]
          simp only [bind_assoc, pure_bind]
          refine bind_congr (m := Exec) fun proxies => ?_
          rw [Step.answers_answer, evalAll_ident (v := .slice proxies)]
          simp [Frame.get?_cons]
        · simp [Frame.get?_cons, Table.get?_insert]
      · simp [Frame.get?_cons, Table.get?_insert]
      · simp [Frame.get?_cons, Table.get?_insert]
    · exact eval_ident (by simp [Frame.get?_cons])
  · rfl

end AccessorSite

end FieldAccess
