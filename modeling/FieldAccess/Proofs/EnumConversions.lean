import FieldAccess.Proofs.EnumTables
import FieldAccess.Proofs.PackageNames
import FieldAccess.Proofs.PackageVariables

namespace FieldAccess

-- The ordinals that stand in a value: an integer, or the integers of a list. `nil` counts as an
-- empty list.
def Value.ordinals? : Multiplicity → Value → Option (List Int64)
  | .single, .int n => some [n]
  | .multi, .slice items => items.mapM int?
  | .multi, .nil => some []
  | _, _ => none

theorem Value.mapM_int?_eq_some {items : List Value} {ns : List Int64} :
    items.mapM int? = some ns ↔ items = ns.map .int := by
  induction items generalizing ns with
  | nil => cases ns <;> simp
  | cons v rest ih =>
    cases v <;> cases ns <;> simp [List.mapM_cons, int?, ih, Option.bind_eq_some_iff, and_comm]

namespace Builtin

-- No builtin function and no predeclared type ends in the letter that conversions of lists end in.
theorem of?_eq_none_of_last {name : String} (last : name.toList.getLast? = some 'f') (count : Nat) :
    of? name count = none := by
  have other : ∀ x ∈ "len" :: "make" :: "append" :: "panic" :: conversionNames,
      x.toList.getLast? ≠ some 'f' := by decide
  have apart (x : String) (hx : x ∈ "len" :: "make" :: "append" :: "panic" :: conversionNames) :
      name ≠ x := fun same => other x hx (same ▸ last)
  have unknown : name ∉ conversionNames := fun h => apart name (by simp [h]) rfl
  simp [of?, apart "len", apart "make", apart "append", apart "panic", unknown]

end Builtin

section

variable {p : Program} {call : CallHandler} {f : Frame} {m m' : Machine} {enum : String} {n : Int64}
  {ns : List Int64}

-- The name of a type of integers that is not the name of a builtin function.
structure Program.Converts (p : Program) (enum : String) : Prop where
  type : p.underlying? enum = some .int
  builtin : Builtin.of? enum 1 = none

namespace Exec

-- Past a check that its name is free.
theorem guard_ok {x : String} {fault : ExecFault} (run : guard p f x fault m = .ok () m') :
    m.globals.get? x = none ∧ m = m' := by
  obtain ⟨found, m₁, bound, run⟩ := ok_bind.1 run
  obtain ⟨rfl, rfl⟩ : (f.get? x).or (m.globals.get? x) = found ∧ m = m₁ :=
    EStateM.Result.ok.inj bound
  split at run
  case isTrue => cases run
  case isFalse unbound =>
    have free := Option.not_isSome_iff_eq_none.1 unbound
    exact ⟨(Option.or_eq_none_iff.1 free).2, (ok_pure.1 run).2⟩

-- A function that is not hidden is called with its arguments.
theorem callNamed_function {name : String} {g : FuncDecl} (builtin : Builtin.of? name 1 = none)
    (type : p.underlying? name = none) (found : p.function? name = some g) (e : Expr)
    (x : Exec Value) :
    callNamed p call f name [e] [x] = x >>= fun v => call g none [v] := by
  funext m
  simp only [callNamed, List.length_singleton, builtin, ite_self, type, found, all, bind_assoc,
    pure_bind]
  rfl

theorem callNamed_conversion (converts : p.Converts enum) (e : Expr) (x : Exec Value) :
    callNamed p call f enum [e] [x] =
      x >>= fun v => ofExcept (Value.convert "int" v) >>= fun w => pure [w] := by
  funext m
  simp only [callNamed, List.length_singleton, converts.builtin, ite_self, converts.type]
  rfl

theorem eval_conversion (converts : p.Converts enum) (e : Expr) (span : Span) :
    eval p call f (.callNamed enum [e] span) =
      eval p call f e >>= fun v => ofExcept (Value.convert "int" v) := by
  rw [Expr.callNamed, eval]
  change callNamed p call f enum [e] [eval p call f e] >>= oneResult = _
  rw [callNamed_conversion converts]
  simp only [bind_assoc, pure_bind]
  exact bind_congr (m := Exec) fun v => bind_pure _

theorem eval_conversion_int (converts : p.Converts enum) {e : Expr} (span : Span)
    (run : eval p call f e m = .ok (.int n) m') :
    eval p call f (.callNamed enum [e] span) m = .ok (.int n) m' := by
  rw [eval_conversion converts, bind_of_ok run]
  rfl

-- Converted one by one, integers stay as they are.
theorem all_conversions (converts : p.Converts enum) (span : Span) {es : List Expr}
    (run : all (es.map (eval p call f)) m = .ok (ns.map .int) m') :
    all (es.map fun e => eval p call f (.callNamed enum [e] span)) m = .ok (ns.map .int) m' := by
  induction es generalizing m ns with
  | nil => exact run
  | cons e rest ih =>
    rw [List.map_cons, all] at run
    obtain ⟨v, m₁, head, run⟩ := ok_bind.1 run
    obtain ⟨vs, m₂, tail, run⟩ := ok_bind.1 run
    obtain ⟨same, rfl⟩ := ok_pure.1 run
    cases ns with
    | nil => cases same
    | cons n ns =>
      obtain ⟨rfl, rfl⟩ := List.cons.inj same
      rw [List.map_cons, all, bind_of_ok (eval_conversion_int converts span head),
        bind_of_ok (ih tail)]
      rfl

theorem values_entries (elements : List Element) :
    (entries p call f elements).map (·.value) = elements.map fun e => eval p call f e.value := by
  induction elements with
  | nil => rfl
  | cons e rest ih => cases e <;> simp [entries, ih, Element.value]

-- What an item becomes that is converted and appended.
def convertEach (p : Program) (f : Frame) (v : Value) : Exec Value := do
  guard p f "append" (.type (.conversionCount "append"))
  ofExcept (Value.convert "int" v)

end Exec

namespace EnumEntry

variable {entry : EnumEntry} {settings : Settings} {rounds depth : Nat} {t : Table String} {v : Value}

open Code in
-- What the function that converts lists does with each item.
def convertItem (span : Span) (enum : String) : Stmt :=
  assign span (ident span "converted")
    (apply span "append" [ident span "converted", apply span enum [ident span "v"]])

-- One round of the loop that converts items.
theorem eachRound_convertItem (plain : p.Plain) (converts : p.Converts enum) (span : Span)
    (item : Value × Value) (items : List Value) :
    Step.eachRound p call rounds "_" (some "v") [convertItem span enum] item
        ⟨[t.insert "converted" (.slice items)]⟩ =
      Exec.convertEach p ⟨[t]⟩ item.2 >>= fun w =>
        pure (.next, ⟨[t.insert "converted" (.slice (items ++ [w]))]⟩) := by
  let f : Frame := ⟨[.empty, Table.empty.insert "v" item.2, t.insert "converted" (.slice items)]⟩
  have list : f.get? "converted" = some (.slice items) := by
    simp [f, Frame.get?_cons, Table.get?_insert]
  have value : f.get? "v" = some item.2 := by
    simp [f, Frame.get?_cons, Table.get?_insert]
  have conversion : Exec.eval p call f (Code.apply span enum [Code.ident span "v"]) =
      Exec.ofExcept (Value.convert "int" item.2) := by
    refine (Exec.eval_conversion converts _ span).trans ?_
    rw [Code.eval_ident value, pure_bind]
  have appended : Exec.eval p call f (Code.apply span "append"
      [Code.ident span "converted", Code.apply span enum [Code.ident span "v"]]) =
      Exec.convertEach p ⟨[t]⟩ item.2 >>= fun w => pure (.slice (items ++ [w])) := by
    rw [Code.eval_apply]
    simp only [Exec.actions, Code.eval_ident list, conversion, Exec.callNamed_append plain,
      bind_assoc, Exec.convertEach]
    rw [Exec.guard_congr (f := ⟨[t]⟩)]
    · rfl
    · simp [f, Frame.get?_cons, Table.get?_insert]
  have inner : (((⟨[t.insert "converted" (.slice items)]⟩ : Frame).push.define "_" item.1).define
      "v" item.2).push = f := rfl
  simp only [Step.eachRound, Option.elim_some, inner, convertItem]
  rw [Step.steps, Step.sequence_run, Step.exec_assign, Place.resolve_ident (by decide), pure_bind,
    appended]
  simp only [bind_assoc, pure_bind, Place.write_named list, Step.steps, Step.sequence, Step.pure_run]
  refine bind_congr (m := Exec) fun w => ?_
  simp [f, Frame.assign, Frame.assignIn, Table.contains, Table.get?_insert, Frame.pop,
    Table.insert_insert]

theorem exec_convertItems (plain : p.Plain) (converts : p.Converts enum) (span : Span)
    {iterable : Expr}
    (value : Exec.eval p call ⟨[t.insert "converted" (.slice [])]⟩ iterable = pure v) :
    Step.exec p call rounds (Code.each span "_" (some "v") iterable [convertItem span enum])
        ⟨[t.insert "converted" (.slice [])]⟩ =
      Step.itemsOf v >>= fun pairs => pairs.mapM (fun pair => Exec.convertEach p ⟨[t]⟩ pair.2) >>=
        fun ws => pure (.next, ⟨[t.insert "converted" (.slice ws)]⟩) := by
  rw [Step.exec_each, value, pure_bind]
  refine bind_congr (m := Exec) fun pairs => ?_
  rw [Step.forEach_fold _
    (fun items pair => Exec.convertEach p ⟨[t]⟩ pair.2 >>= fun w => pure (items ++ [w]))
    (fun items => ⟨[t.insert "converted" (.slice items)]⟩)
    (fun pair items => by simp only [eachRound_convertItem plain converts, bind_assoc, pure_bind])
    pairs [], Step.foldlM_append]
  simp only [bind_assoc, pure_bind, List.nil_append]

-- The function that converts lists converts each item.
theorem run_sliceHelper (plain : p.Plain) (converts : p.Converts entry.name) (v : Value) :
    p.invoke rounds (depth + 1) (entry.sliceHelper settings) none [v] =
      Exec.guard p ⟨[Table.empty.insert "values" v]⟩ "make" (.type (.conversionCount "make")) >>=
        fun _ => Step.itemsOf v >>= fun pairs =>
          pairs.mapM (fun pair => Exec.convertEach p ⟨[Table.empty.insert "values" v]⟩ pair.2) >>=
            fun ws => pure [.slice ws] := by
  let t := Table.empty.insert "values" v
  let values := Code.ident .nowhere "values"
  rw [Program.invoke_succ rfl]
  change Step.answers p _ rounds [
    Code.define .nowhere ["converted"] (Code.make .nowhere (.slice (.named entry.name))
      [Code.number .nowhere 0, Code.apply .nowhere "len" [values]]),
    Code.each .nowhere "_" (some "v") values [convertItem .nowhere entry.name],
    Code.answer .nowhere (Code.ident .nowhere "converted")] ⟨[t]⟩ = _
  rw [Step.answers_define, Code.eval_make plain, Code.eval_number]
  simp only [bind_assoc, pure_bind]
  refine bind_congr (m := Exec) fun _ => ?_
  rw [show List.replicate _ _ = ([] : List Value) from rfl, Frame.define_cons (by decide),
    Step.answers_cons, exec_convertItems plain converts .nowhere (v := v)]
  · simp only [bind_assoc, pure_bind]
    refine bind_congr (m := Exec) fun pairs => bind_congr (m := Exec) fun ws => ?_
    rw [Step.answers_answer, Code.evalAll_ident (v := .slice ws)]
    simp [Frame.get?_cons]
  · exact Code.eval_ident (by simp [t, Frame.get?_cons, Table.get?_insert])

-- Integers come out as they are, if what the loop uses is there.
theorem run_sliceHelper_of_free (plain : p.Plain) (converts : p.Converts entry.name)
    (free : ∀ x ∈ ["make", "append"], m.globals.get? x = none)
    (ordinals : v.ordinals? .multi = some ns) :
    p.invoke rounds (depth + 1) (entry.sliceHelper settings) none [v] m =
      .ok [.slice (ns.map .int)] m := by
  have guarded (x : String) (hx : x ∈ ["make", "append"]) (fault : ExecFault) :
      Exec.guard p ⟨[Table.empty.insert "values" v]⟩ x fault m = .ok () m := by
    have other : ∀ x ∈ ["make", "append"], x ≠ "values" := by decide
    exact Exec.guard_run (by simp [Frame.get?_cons, Table.get?_insert, other x hx]) (free x hx) fault
  have each (n : Int64) : (Exec.convertEach p ⟨[Table.empty.insert "values" v]⟩ ∘ .int) n m =
      (some (Value.int n)).elim (.error .callDepth m) (.ok · m) :=
    Exec.bind_of_ok (guarded "append" (by simp) _) _
  have items : (Step.itemsOf v >>= fun pairs => pairs.mapM fun pair =>
      Exec.convertEach p ⟨[Table.empty.insert "values" v]⟩ pair.2) m = .ok (ns.map .int) m := by
    cases v with
    | slice items =>
      obtain rfl := Value.mapM_int?_eq_some.1 ordinals
      rw [Step.itemsOf_mapM, List.mapM_map, Exec.mapM_run each ns, mapM_eq_some fun _ _ => rfl]
      rfl
    | nil =>
      obtain rfl : [] = ns := Option.some.inj ordinals
      rfl
    | _ => cases ordinals
  rw [run_sliceHelper plain converts, Exec.bind_of_ok (guarded "make" (by simp) _), ← bind_assoc,
    Exec.bind_of_ok items]
  rfl

end EnumEntry

end

namespace FieldInfo

section

variable {info : FieldInfo} {settings : Settings} {p : Program} {rounds : Nat} {m : Machine}
  {enum : String} {multiplicity : Multiplicity}

variable (info settings p rounds multiplicity m) in
-- Wherever a value has ordinals, the argument that writes it has the same and leads to the same
-- machine, as long as one more call may be under way.
def KeepsOrdinals : Prop :=
  ∀ (value : TypedExpr) (span : Span) (f : Frame) (depth : Nat) (v : Value) (ns : List Int64)
    (m' : Machine),
    Exec.eval p (p.invoke rounds (depth + 1)) f value.expr m = .ok v m' →
    v.ordinals? multiplicity = some ns →
    ∃ v', Exec.eval p (p.invoke rounds (depth + 1)) f (info.argument settings value span) m =
      .ok v' m' ∧ v'.ordinals? multiplicity = some ns

theorem enum?_of_classification
    (class_ : info.classification? = some (.enumeration multiplicity enum)) :
    info.enum? = some enum := by
  simp [enum?, class_, Classification.enum?]

theorem keepsOrdinals_single (class_ : info.classification? = some (.enumeration .single enum))
    (converts : p.Converts enum) : info.KeepsOrdinals settings p rounds m .single := by
  intro value span f depth v ns m' run ordinals
  have single : info.isMulti = false := by
    simp [isMulti, class_, Classification.isMulti, Classification.multiplicity]
  obtain ⟨n, rfl⟩ : ∃ n, v = .int n := by
    cases v with
    | int n => exact ⟨n, rfl⟩
    | _ => cases ordinals
  refine ⟨.int n, ?_, ordinals⟩
  simp only [argument, enum?_of_classification class_, single, Bool.false_eq_true, if_false]
  split
  · exact run
  · exact Exec.eval_conversion_int converts span run

-- A literal is converted element by element.
theorem eval_literalElements {call : CallHandler} {f : Frame} {e : Expr} {es : List Expr} {v : Value}
    {ns : List Int64} {m' : Machine} (converts : p.Converts enum) (span span' : Span)
    (elements : literalElements? e = some es) (run : Exec.eval p call f e m = .ok v m')
    (ordinals : v.ordinals? .multi = some ns) :
    Exec.eval p call f (.composite span' (.slice (.named enum))
      (es.map fun e => .positional (.callNamed enum [e] span))) m = .ok (.slice (ns.map .int)) m' := by
  unfold literalElements? at elements
  split at elements
  case h_2 => cases elements
  case h_1 _ element list =>
    split at elements
    case isFalse => cases elements
    case isTrue =>
      obtain rfl := Option.some.inj elements
      rw [Exec.eval, Exec.sliceLiteral, Exec.values_entries] at run ⊢
      obtain ⟨vs, m₁, items, run⟩ := Exec.ok_bind.1 run
      obtain ⟨rfl, rfl⟩ := Exec.ok_pure.1 run
      obtain rfl := Value.mapM_int?_eq_some.1 ordinals
      have items : Exec.all ((list.map (·.value)).map (Exec.eval p call f)) m =
          .ok (ns.map .int) m₁ := (List.map_map ..).symm ▸ items
      rw [List.map_map]
      exact Exec.bind_of_ok (Exec.all_conversions converts span items) _

-- The program has the function that converts lists, and no type hides it.
structure ConvertsLists (settings : Settings) (p : Program) (entry : EnumEntry) : Prop where
  plain : p.Plain
  function : p.function? (settings.sliceHelper entry.name) = some (entry.sliceHelper settings)
  visible : p.underlying? (settings.sliceHelper entry.name) = none

variable (settings enum) in
theorem builtin_sliceHelper : Builtin.of? (settings.sliceHelper enum) 1 = none :=
  Builtin.of?_eq_none_of_last (by simp [Settings.sliceHelper]) 1

theorem eval_sliceHelper {f : Frame} {call : CallHandler} {e : Expr} {entry : EnumEntry}
    (lists : ConvertsLists settings p entry) (span : Span) :
    Exec.eval p call f (.callNamed (settings.sliceHelper entry.name) [e] span) =
      Exec.eval p call f e >>= fun v =>
        call (entry.sliceHelper settings) none [v] >>= Exec.oneResult := by
  rw [Expr.callNamed, Exec.eval]
  change Exec.callNamed p _ f _ [e] [Exec.eval p _ f e] >>= Exec.oneResult = _
  rw [Exec.callNamed_function (builtin_sliceHelper ..) lists.visible lists.function, bind_assoc]

theorem keepsOrdinals_multi {entry : EnumEntry}
    (class_ : info.classification? = some (.enumeration .multi entry.name))
    (converts : p.Converts entry.name) (lists : ConvertsLists settings p entry)
    (free : ∀ x ∈ ["make", "append"], m.globals.get? x = none) :
    info.KeepsOrdinals settings p rounds m .multi := by
  intro value span f depth v ns m' run ordinals
  have multi : info.isMulti = true := by
    simp [isMulti, class_, Classification.isMulti, Classification.multiplicity]
  have items : (Value.slice (ns.map .int)).ordinals? .multi = some ns :=
    Value.mapM_int?_eq_some.2 rfl
  simp only [argument, enum?_of_classification class_, multi, if_true]
  split
  · exact ⟨v, run, ordinals⟩
  · split
    case h_1 es elements =>
      exact ⟨_, eval_literalElements converts span _ elements run ordinals, items⟩
    case h_2 =>
      -- Nothing that the value calls can bring in a variable that hides `make` or `append`.
      have later := (Exec.eval_declaresNothing (p.invoke_declaresNothing rounds (depth + 1)) _).ok run
      refine ⟨_, ?_, items⟩
      rw [eval_sliceHelper lists, Exec.bind_of_ok run, Exec.bind_of_ok
        (EnumEntry.run_sliceHelper_of_free lists.plain converts
          (fun x hx => later x (free x hx)) ordinals)]
      rfl

-- A list in a variable is passed through the function, unless it is known to hold options.
theorem argument_of_ident {x : String} {type : Option StaticType} {span span' : Span}
    (class_ : info.classification? = some (.enumeration .multi enum))
    (other : type ≠ some (.known (.slice (.named enum)))) (filled : type ≠ some .untypedNil) :
    info.argument settings ⟨.ident span x, type⟩ span' =
      .callNamed (settings.sliceHelper enum) [.ident span x] span' := by
  simp [argument, enum?_of_classification class_, isMulti, class_, Classification.isMulti,
    Classification.multiplicity, TypedExpr.hasType, literalElements?, other, filled]

-- A list that is read from a variable comes through the conversion only if nothing is in the way.
theorem free_of_keepsOrdinals {entry : EnumEntry}
    (class_ : info.classification? = some (.enumeration .multi entry.name)) (plain : p.Plain)
    (converts : p.Converts entry.name)
    (function : p.function? (settings.sliceHelper entry.name) = some (entry.sliceHelper settings))
    (keeps : info.KeepsOrdinals settings p rounds m .multi) :
    p.underlying? (settings.sliceHelper entry.name) = none ∧
      ∀ x ∈ ["make", "append"], m.globals.get? x = none := by
  let list : Value := .slice [.int 0]
  let f : Frame := ⟨[Table.empty.insert "xs" list]⟩
  let e : Expr := .ident .nowhere "xs"
  have value : Exec.eval p (p.invoke rounds 1) f e = pure list := Code.eval_ident rfl
  obtain ⟨v', run, _⟩ := keeps ⟨e, none⟩ .nowhere f 0 list [0] m (by rw [value]; rfl) rfl
  have argument : info.argument settings ⟨e, none⟩ .nowhere =
      .callNamed (settings.sliceHelper entry.name) [e] .nowhere :=
    argument_of_ident class_ nofun nofun
  rw [argument] at run
  have visible : p.underlying? (settings.sliceHelper entry.name) = none := by
    by_contra hidden
    obtain ⟨type, hidden⟩ := Option.ne_none_iff_exists'.1 hidden
    have converts : p.Converts (settings.sliceHelper entry.name) :=
      ⟨plain.underlying hidden ▸ hidden, builtin_sliceHelper ..⟩
    rw [Exec.eval_conversion converts, value] at run
    cases run
  have lists : ConvertsLists settings p entry := ⟨plain, function, visible⟩
  rw [eval_sliceHelper lists, value, pure_bind, EnumEntry.run_sliceHelper plain converts] at run
  obtain ⟨_, _, run, _⟩ := Exec.ok_bind.1 run
  obtain ⟨_, m₁, make, run⟩ := Exec.ok_bind.1 run
  obtain ⟨freeMake, rfl⟩ := Exec.guard_ok make
  rw [← bind_assoc, Step.itemsOf_mapM, List.mapM_cons] at run
  obtain ⟨_, _, run, _⟩ := Exec.ok_bind.1 run
  obtain ⟨_, _, run, _⟩ := Exec.ok_bind.1 run
  obtain ⟨_, _, append, _⟩ := Exec.ok_bind.1 run
  obtain ⟨freeAppend, _⟩ := Exec.guard_ok append
  refine ⟨visible, fun x hx => ?_⟩
  rcases List.mem_pair.1 hx with rfl | rfl
  · exact freeMake
  · exact freeAppend

end

end FieldInfo

namespace Catalog

variable {c : Catalog} {settings : Settings} {enums : EnumTable} {methods : List FuncDecl}
  {entry : EnumEntry} {name : String} {rounds : Nat} {m : Machine}

theorem struct_cases {fields : List StructField}
    (h : .struct name fields ∈ (c.program settings enums methods).declarations) :
    ∃ e ∈ c.entities, e.name = name := by
  rcases declaration_cases h with ⟨entry, found, hd, _⟩ | ⟨e, he, hd | ⟨_, _, hd⟩⟩
  · simp [EnumEntry.declarations] at hd
  · exact ⟨e, he, (Decl.struct.inj hd).1.symm⟩
  · cases hd

-- A name stands for integers exactly if an enumeration is declared under it.
theorem underlying?_eq_some_iff (apart : ∀ e ∈ c.entities, e.name ∉ enums.names) :
    (c.program settings enums methods).underlying? name = some .int ↔
      .defined name .int ∈ (c.program settings enums methods).declarations := by
  constructor
  · exact Program.defined_of_underlying?
  · intro mem
    have found : (c.program settings enums methods).type? name = some (.defined .int) := by
      refine Program.last?_eq_some mem (if_pos rfl) fun d mem' type value => ?_
      cases d with
      | defined n underlying =>
        obtain ⟨rfl, rfl⟩ : n = name ∧ .defined underlying = type := by simpa using value
        rw [(defined_cases mem').2]
      | struct n fields =>
        obtain ⟨rfl, _⟩ : n = name ∧ .struct fields = type := by simpa using value
        obtain ⟨e, he, same⟩ := struct_cases mem'
        exact absurd (defined_cases mem).1 (same ▸ apart e he)
      | _ => cases value
    rw [Program.underlying?, found]

theorem underlying?_eq_none_iff (apart : ∀ e ∈ c.entities, e.name ∉ enums.names) :
    (c.program settings enums methods).underlying? name = none ↔
      .defined name .int ∉ (c.program settings enums methods).declarations := by
  rw [← underlying?_eq_some_iff apart]
  constructor
  · intro none some
    cases none.symm.trans some
  · intro other
    by_contra some
    obtain ⟨type, found⟩ := Option.ne_none_iff_exists'.1 some
    exact other (underlying?_eq_int found ▸ found)

theorem Clean.function?_sliceHelper (clean : c.Clean settings enums methods)
    (found : enums.get? entry.name = some entry)
    (declared : entry.declarations settings ⊆ (c.program settings enums methods).declarations) :
    (c.program settings enums methods).function? (settings.sliceHelper entry.name) =
      some (entry.sliceHelper settings) := by
  have mem : .func (entry.sliceHelper settings) ∈ entry.declarations settings := by
    simp [EnumEntry.declarations]
  refine Program.last?_eq_some (declared mem) ?_ fun d hd f value => ?_
  · simp [Decl.func?, EnumEntry.sliceHelper, Code.function, FuncDecl.receiverEntity?]
  · obtain ⟨func, free⟩ := Option.filter_eq_some_iff.1 value
    obtain rfl : d = .func f := by cases d <;> simp_all [Decl.func?]
    obtain ⟨receiver, called⟩ :
        f.receiverEntity? = none ∧ f.name = settings.sliceHelper entry.name := by
      simpa using free
    rcases declaration_cases hd with ⟨entry', found', hd, _⟩ | ⟨e, he, hd | ⟨f', hf, hd⟩⟩
    · obtain rfl : f = entry'.sliceHelper settings := by simpa [EnumEntry.declarations] using hd
      have same : entry'.name = entry.name := Settings.sliceHelper_inj called
      rw [same, found] at found'
      rw [Option.some.inj found']
    · cases hd
    · cases hd
      rw [EntityFields.receiverEntity?_of_mem_functions (clean.built.fields e he) hf] at receiver
      cases receiver

-- Among the variables of a loaded program, these names can only be those of constants.
theorem load_builtins (sound : enums.Sound)
    (run : (c.program settings enums methods).load rounds {} = .ok () m) :
    ∀ x ∈ ["make", "append"], m.globals.get? x = none ↔
      x ∉ ((c.program settings enums methods).declarations.flatMap Decl.constants).map Prod.fst := by
  intro x hx
  have other : ∀ x ∈ ["make", "append"], x.toList.getLast? ≠ some 'p' := by decide
  rw [load_others run fun e mem => other x hx ?_]
  · constructor
    · intro free mem
      obtain ⟨⟨x, v⟩, hc, rfl⟩ := List.mem_map.1 mem
      cases free.symm.trans (defines_constants sound _ hc)
    · intro h
      exact (Table.get?_insertAll_of_not_mem h).trans (Table.get?_empty x)
  · obtain ⟨_, _, rfl | rfl⟩ := table_of_var mem <;>
      exact Settings.getLast?_append_toList _ _ (by decide)

end Catalog

-- A list of tags, and an enumeration that is called like the function that converts such lists.
def Schema.hidingConversion : Schema where
  entities :=
    [{ name := "Order"
       fields :=
         [enumField "tags" "Tag" ["a", "b"] true, enumField "kind" "zzTagSliceOf" ["x"] false] }]

theorem Schema.hidingConversion_implicit : ∀ e ∈ hidingConversion.entities, ∀ f ∈ e.fields,
    ∀ spec, f.enumeration = some spec → spec.constNames = none := by
  have all : ∀ e ∈ hidingConversion.entities, ∀ f ∈ e.fields,
      f.enumeration.all (·.constNames = none) = true := by decide
  exact fun e he f hf spec hs => by simpa [hs] using all e he f hf

namespace Run

variable {schema : Schema} {settings : Settings} {methods : List FuncDecl} {g : Generated}

-- Whatever has run since the program was loaded, every value that is written to a field of options is
-- converted to its ordinals, exactly unless the field holds lists and a type is called like the
-- function that converts them, or a constant like one of the builtin functions in it.
theorem conversions_keep_ordinals_iff (ok : (ofSchema schema settings methods).result = .ok g)
    {e : EntityFields} (he : e ∈ (Catalog.build schema settings {}).value.entities)
    {info : FieldInfo} (hi : info ∈ e.fields) {multiplicity : Multiplicity} {enum : String}
    (class_ : info.classification? = some (.enumeration multiplicity enum))
    (named : Builtin.of? enum 1 = none) {rounds : Nat} {m₀ : Machine}
    (load : g.program.load rounds {} = .ok () m₀) :
    (∀ m, m₀.KeepsFree m → info.KeepsOrdinals settings g.program rounds m multiplicity) ↔
      (multiplicity = .multi →
        .defined (settings.sliceHelper enum) .int ∉ g.declarations ∧
        ∀ x ∈ ["make", "append"], x ∉ (g.declarations.flatMap Decl.constants).map Prod.fst) := by
  obtain ⟨redirected, _, _, clean, rfl⟩ := redirects_of_ok ok
  let c := (Catalog.build schema settings {}).value
  let enums := (Catalog.build schema settings {}).enums
  let p := c.program settings enums redirected
  have apart : ∀ e ∈ c.entities, e.name ∉ enums.names :=
    fun e he => Catalog.name_not_mem_enumNames schema settings he
  have builtins := Catalog.load_builtins (Catalog.sound_enums_build schema settings) load
  cases (clean.built.fields e he).backed info hi _ class_ with
  | @enumeration spec entry _ _ _ _ found =>
    have has : info.enum?.bind enums.get? = some entry := by
      rw [FieldInfo.enum?_of_classification class_]
      exact found
    have declared : entry.declarations settings ⊆ p.declarations := fun d hd =>
      (Catalog.enum_mem_declarationsFrom settings redirected [] he hi has hd).resolve_left (by simp)
    have converts : p.Converts entry.name :=
      ⟨(Catalog.underlying?_eq_some_iff apart).2 (declared (List.mem_cons_self ..)), named⟩
    have function := clean.function?_sliceHelper found declared
    cases multiplicity with
    | single =>
      exact ⟨fun _ => nofun, fun _ _ _ => FieldInfo.keepsOrdinals_single class_ converts⟩
    | multi =>
      constructor
      · intro keeps _
        obtain ⟨visible, free⟩ := FieldInfo.free_of_keepsOrdinals class_ clean.plain converts
          function (keeps m₀ (.refl m₀))
        exact ⟨(Catalog.underlying?_eq_none_iff apart).1 visible,
          fun x hx => (builtins x hx).1 (free x hx)⟩
      · intro clear m later
        obtain ⟨visible, free⟩ := clear rfl
        have lists : FieldInfo.ConvertsLists settings p entry :=
          ⟨clean.plain, function, (Catalog.underlying?_eq_none_iff apart).2 visible⟩
        exact FieldInfo.keepsOrdinals_multi class_ converts lists
          fun x hx => later x ((builtins x hx).2 (free x hx))

-- The flags of an order are converted to what they are.
theorem conversions_keep_ordinals_flags : ∃ g m, ∃ info : FieldInfo,
    (ofSchema .shop .standard []).result = .ok g ∧ g.program.load 0 {} = .ok () m ∧
    info.name = "flags" ∧ info.KeepsOrdinals .standard g.program 0 m .multi := by
  obtain ⟨g, ok⟩ := shop_ok
  obtain ⟨m, load⟩ := exists_load_of_lower Schema.shop_implicit ok 0 ⟨'z', by decide⟩
  obtain ⟨e, he, info, hi, name, class_⟩ :
      ∃ e ∈ (Catalog.build .shop .standard {}).value.entities, ∃ info ∈ e.fields,
        info.name = "flags" ∧ info.classification? = some (.enumeration .multi "Flag") := by
    decide +kernel
  have same : g.declarations = Catalog.declarations _ _ _ _ :=
    congrArg Program.declarations (ofSchema_ok ok).2.1
  refine ⟨g, m, info, ok, load, name, ?_⟩
  refine (conversions_keep_ordinals_iff ok he hi class_ (by decide) load).2 (fun _ => ?_) m (.refl m)
  rw [same, Catalog.defined_mem_declarations_iff (ofSchema_ok ok).1.built]
  decide +kernel

-- Where an enumeration is called like the conversion of tags, a list of tags in a variable may be
-- written, but the argument that writes it fails.
theorem hidden_conversion_fails : ∃ g m, ∃ info : FieldInfo,
    (ofSchema .hidingConversion .standard []).result = .ok g ∧ g.program.load 0 {} = .ok () m ∧
    info.name = "tags" ∧ info.classification? = some (.enumeration .multi "Tag") ∧
    let xs : TypedExpr := ⟨.ident .nowhere "xs", some (.known (.slice .int))⟩
    let list : Value := .slice [.int 1, .int 0]
    let f : Frame := ⟨[Table.empty.insert "xs" list]⟩
    let call := g.program.invoke 0 1
    info.accepts (.known (.slice .int)) = true ∧
    Exec.eval g.program call f xs.expr m = .ok list m ∧
    Exec.eval g.program call f (info.argument .standard xs .nowhere) m =
      .error (.type (.conversion "int" list)) m := by
  obtain ⟨g, ok⟩ := exists_ok
    (show (ofSchema .hidingConversion .standard []).result.isOk by decide +kernel)
  obtain ⟨m, load⟩ := exists_load_of_lower Schema.hidingConversion_implicit ok 0 ⟨'z', by decide⟩
  obtain ⟨e, he, info, hi, name, class_, accepted⟩ :
      ∃ e ∈ (Catalog.build .hidingConversion .standard {}).value.entities, ∃ info ∈ e.fields,
        info.name = "tags" ∧ info.classification? = some (.enumeration .multi "Tag") ∧
        info.accepts (.known (.slice .int)) = true := by
    decide +kernel
  obtain ⟨clean, program, _⟩ := ofSchema_ok ok
  have hides : g.program.Converts (Settings.standard.sliceHelper "Tag") := by
    refine ⟨?_, by decide⟩
    rw [program]
    refine (Catalog.underlying?_eq_some_iff fun e he =>
      Catalog.name_not_mem_enumNames _ _ he).2 ?_
    refine (Catalog.defined_mem_declarations_iff clean.built).2 ?_
    decide +kernel
  refine ⟨g, m, info, ok, load, name, class_, accepted, rfl, ?_⟩
  rw [FieldInfo.argument_of_ident class_ (by decide) (by decide), Exec.eval_conversion hides]
  rfl

end Run

end FieldAccess
