import FieldAccess.Eval.Call
import FieldAccess.Generate.Code
import FieldAccess.Proofs.Machines

namespace FieldAccess

section

variable {p : Program} {call : CallHandler} {rounds : Nat} {f : Frame} {span : Span} {x : String}
  {v : Value} {e : Expr}

namespace Step

variable {α β : Type}

theorem bind_run (x : Step α) (k : α → Step β) (f : Frame) :
    (x >>= k) f = x f >>= fun r => k r.1 r.2 := rfl

theorem pure_run (a : α) (f : Frame) : (pure a : Step α) f = pure (a, f) := rfl

theorem lift_run (x : Exec α) (f : Frame) :
    (liftM x : Step α) f = x >>= fun a => pure (a, f) := rfl

theorem define_run (x : String) (v : Value) (f : Frame) :
    define x v f = pure ((), f.define x v) := rfl

theorem reading_run (g : Frame → Exec α) (f : Frame) :
    reading g f = g f >>= fun a => pure (a, f) := rfl

theorem inScope_run (x : Step α) (f : Frame) :
    inScope x f = x f.push >>= fun r => pure (r.1, r.2.pop) := rfl

theorem sequence_run (x : Step Flow) (rest : List (Step Flow)) (f : Frame) :
    sequence (x :: rest) f = x f >>= fun r =>
      match r.1 with
      | .next => sequence rest r.2
      | flow => pure (flow, r.2) := by
  rw [sequence, bind_run]
  congr 1
  funext ⟨flow, f'⟩
  cases flow <;> rfl

theorem forEach_run (round : α → Step Flow) (a : α) (rest : List α) (f : Frame) :
    forEach round (a :: rest) f = round a f >>= fun r =>
      match r.1 with
      | .breaks => pure (.next, r.2)
      | .returns vs => pure (.returns vs, r.2)
      | .next | .continues => forEach round rest r.2 := by
  rw [forEach, bind_run]
  congr 1
  funext ⟨flow, f'⟩
  cases flow <;> rfl

end Step

namespace Frame

theorem get?_cons (s : Table String) (ss : List (Table String)) (x : String) :
    (⟨s :: ss⟩ : Frame).get? x = (s.get? x).or ((⟨ss⟩ : Frame).get? x) := by
  rw [get?, List.findSome?_cons]
  cases s.get? x <;> rfl

@[simp]
theorem get?_nil (x : String) : (⟨[]⟩ : Frame).get? x = none := rfl

theorem define_cons {x : String} (named : x ≠ "_") (v : Value) (s : Table String)
    (ss : List (Table String)) : (⟨s :: ss⟩ : Frame).define x v = ⟨s.insert x v :: ss⟩ :=
  if_neg named

end Frame

namespace Code

theorem eval_ident (known : f.get? x = some v) :
    Exec.eval p call f (ident span x) = pure v := by
  funext m
  rw [ident, Exec.eval, Exec.binding?, known]
  rfl

theorem evalAll_ident (known : f.get? x = some v) :
    Exec.evalAll p call f (ident span x) = pure [v] := by
  rw [← pure_bind v fun v => (pure [v] : Exec (List Value)), ← eval_ident known]
  rfl

-- The value of a variable that the frame may lack.
theorem eval_variable (x : String) :
    Exec.eval p call f (ident span x) =
      Exec.binding? f x >>= fun found => Exec.orFail (.undefined x) found := rfl

theorem eval_text (s : String) : Exec.eval p call f (text span s) = pure (.str s) := rfl

theorem eval_number (n : Int64) : Exec.eval p call f (number span n) = pure (.int n) := rfl

theorem eval_nil : Exec.eval p call f (nil span) = pure .nil := rfl

theorem eval_member (base : Expr) (name : String) :
    Exec.eval p call f (member span base name) =
      Exec.eval p call f base >>= fun v => Exec.select v name := rfl

theorem eval_item (base i : Expr) :
    Exec.eval p call f (item span base i) =
      Exec.eval p call f base >>= fun c => Exec.eval p call f i >>= fun k => Exec.item c k := rfl

theorem evalAll_item (base i : Expr) :
    Exec.evalAll p call f (item span base i) =
      Exec.eval p call f base >>= fun c => Exec.eval p call f i >>= fun k =>
        Exec.itemAndPresence c k := rfl

theorem evalAll_method (receiver : Expr) (name : String) (args : List Expr) :
    Exec.evalAll p call f (method span receiver name args) =
      Exec.eval p call f receiver >>= fun r =>
        Exec.all (Exec.actions p call f args) >>= fun vs => Exec.callMethod p call r name vs := rfl

theorem eval_method (receiver : Expr) (name : String) (args : List Expr) :
    Exec.eval p call f (method span receiver name args) =
      Exec.evalAll p call f (method span receiver name args) >>= Exec.oneResult := rfl

theorem eval_apply (name : String) (args : List Expr) :
    Exec.eval p call f (apply span name args) =
      Exec.callNamed p call f name args (Exec.actions p call f args) >>= Exec.oneResult := rfl

end Code

namespace Step

attribute [local simp] exec bind_run reading_run pure_run

theorem evalFor_one (e : Expr) (f : Frame) :
    evalFor p call 1 [e] f = Exec.eval p call f e >>= fun v => pure ([v], f) := by
  rw [evalFor, reading_run, Exec.evalFor, if_neg (Nat.lt_irrefl 1)]
  simp only [bind_assoc, pure_bind]

theorem exec_define (x : String) (e : Expr) (f : Frame) :
    exec p call rounds (Code.define span [x] e) f =
      Exec.eval p call f e >>= fun v => pure (.next, f.define x v) := by
  simp only [Code.define, Code.ident, List.map_cons, List.map_nil, exec, assign,
    List.length_singleton, bind_run, evalFor_one, bind_assoc, pure_bind, defineTargets,
    Expr.ident?, Exec.orFail]
  rfl

-- A variable that is declared without a value.
theorem exec_var {type : TypeExpr} (x : String) (f : Frame) :
    exec p call rounds (.var span [x] (some type) []) f =
      pure (.next, f.define x (p.zero type)) := rfl

theorem exec_answer (e : Expr) (f : Frame) :
    exec p call rounds (Code.answer span e) f =
      Exec.evalAll p call f e >>= fun vs => pure (.returns vs, f) := by
  simp [Code.answer]

theorem exec_expr (e : Expr) (f : Frame) :
    exec p call rounds (.expr e) f = Exec.evalAll p call f e >>= fun _ => pure (.next, f) := by
  simp

theorem exec_assign (target e : Expr) (f : Frame) :
    exec p call rounds (Code.assign span target e) f =
      Place.resolve p call f target >>= fun place => Exec.eval p call f e >>= fun v =>
        place.write v f >>= fun r => pure (.next, r.2) := by
  simp only [Code.assign, exec, assign, resolveAll, resolve, bind_run, reading_run, bind_assoc,
    pure_bind, pure_run, List.length_singleton, evalFor_one, writeAll]

theorem evalFor_two (e : Expr) (f : Frame) :
    evalFor p call 2 [e] f = Exec.evalAll p call f e >>= fun vs =>
      if vs.length = 2 then pure (vs, f) else Exec.failType (.valueCount 2 vs.length) := by
  rw [evalFor, reading_run, Exec.evalFor, if_pos (Nat.lt_succ_self 1), bind_assoc]
  refine bind_congr (m := Exec) fun vs => ?_
  split <;> rfl

theorem exec_define_pair (x y : String) (e : Expr) (f : Frame) :
    exec p call rounds (Code.define span [x, y] e) f =
      Exec.evalAll p call f e >>= fun vs =>
        match vs with
        | [v, w] => pure (.next, (f.define x v).define y w)
        | vs => Exec.failType (.valueCount 2 vs.length) := by
  simp only [Code.define, Code.ident, List.map_cons, List.map_nil, exec, assign, List.length_cons,
    List.length_nil, Nat.reduceAdd, bind_run, evalFor_two, bind_assoc]
  refine bind_congr (m := Exec) fun vs => ?_
  match vs with
  | [v, w] => rfl
  | [] | [_] => rfl
  | _ :: _ :: _ :: _ =>
    rw [if_neg (by simp)]
    rfl

theorem exec_branch (cond : Expr) (body : List Stmt) (f : Frame) :
    exec p call rounds (Code.branch span none cond body) f =
      Exec.check p call f.push cond >>= fun b =>
        if b then sequence (steps p call rounds body) f.push.push >>= fun r => pure (r.1, r.2.pop.pop)
        else pure (.next, f) := by
  simp only [Code.branch, exec, inScope_run, bind_run, execOption, pure_bind, reading_run,
    bind_assoc, Code.block, execBlock]
  refine bind_congr (m := Exec) fun b => ?_
  cases b
  · rfl
  · simp only [if_true, inScope_run, bind_assoc, pure_bind]

theorem exec_branch_init (init : Stmt) (cond : Expr) (body : List Stmt) (f : Frame) :
    exec p call rounds (Code.branch span (some init) cond body) f =
      exec p call rounds init f.push >>= fun r => Exec.check p call r.2 cond >>= fun b =>
        if b then
          sequence (steps p call rounds body) r.2.push >>= fun r' => pure (r'.1, r'.2.pop.pop)
        else pure (.next, r.2.pop) := by
  simp only [Code.branch, exec, inScope_run, bind_run, execOption, reading_run, bind_assoc,
    Code.block, execBlock]
  refine bind_congr (m := Exec) fun r => ?_
  simp only [pure_bind]
  refine bind_congr (m := Exec) fun b => ?_
  cases b
  · rfl
  · simp only [if_true, inScope_run, bind_assoc, pure_bind]

-- One round of a loop over items.
def eachRound (p : Program) (call : CallHandler) (rounds : Nat) (key : String)
    (value : Option String) (body : List Stmt) (item : Value × Value) : Step Flow := fun f =>
  let bound := (f.push.define key item.1)
  sequence (steps p call rounds body) (value.elim bound (bound.define · item.2)).push >>= fun r =>
    pure (r.1, r.2.pop.pop)

theorem exec_each (key : String) (value : Option String) (iterable : Expr) (body : List Stmt)
    (f : Frame) :
    exec p call rounds (Code.each span key value iterable body) f =
      Exec.eval p call f iterable >>= fun v => itemsOf v >>= fun items =>
        forEach (eachRound p call rounds key value body) items f := by
  simp only [Code.each, exec, bind_run, eval, reading_run, lift_run, bind_assoc, pure_bind]
  refine bind_congr (m := Exec) fun v => bind_congr (m := Exec) fun items => ?_
  congr 1
  funext item f
  cases value <;>
    simp only [inScope_run, bind_run, bindItem, Code.ident, Expr.ident?, Option.map_none,
      Option.map_some, define_run, Code.block, execBlock, eachRound, bind_assoc, pure_bind,
      Option.elim_none, Option.elim_some]

end Step

variable (p call rounds) in
-- What a call answers while statements are left to run.
def Step.answers (statements : List Stmt) (f : Frame) : Exec (List Value) := do
  match ← Step.sequence (Step.steps p call rounds statements) f with
  | (.returns vs, _) => return vs
  | _ => return []

theorem Program.invoke_succ {depth : Nat} {g : FuncDecl} {receiver : Option Value}
    {args : List Value} (count : args.length = g.params.length) :
    p.invoke rounds (depth + 1) g receiver args =
      Step.answers p (p.invoke rounds depth) rounds g.body.statements
        (.ofTable (Program.parameters g receiver args)) := by
  rw [Program.invoke, if_neg (by simp [count])]
  rfl

namespace Step

variable {rest : List Stmt}

theorem answers_cons (s : Stmt) :
    answers p call rounds (s :: rest) f = exec p call rounds s f >>= fun r =>
      match r.1 with
      | .next => answers p call rounds rest r.2
      | .returns vs => pure vs
      | _ => pure [] := by
  rw [answers, steps, sequence_run, bind_assoc]
  congr 1
  funext ⟨flow, f'⟩
  cases flow <;> rfl

theorem answers_define (x : String) (e : Expr) :
    answers p call rounds (Code.define span [x] e :: rest) f =
      Exec.eval p call f e >>= fun v => answers p call rounds rest (f.define x v) := by
  simp only [answers_cons, exec_define, bind_assoc, pure_bind]

theorem answers_answer (e : Expr) :
    answers p call rounds (Code.answer span e :: rest) f = Exec.evalAll p call f e := by
  simp only [answers_cons, exec_answer, bind_assoc, pure_bind, bind_pure]

theorem answers_expr (e : Expr) :
    answers p call rounds (.expr e :: rest) f =
      Exec.evalAll p call f e >>= fun _ => answers p call rounds rest f := by
  simp only [answers_cons, exec_expr, bind_assoc, pure_bind]

theorem answers_assign (target e : Expr) :
    answers p call rounds (Code.assign span target e :: rest) f =
      Place.resolve p call f target >>= fun place => Exec.eval p call f e >>= fun v =>
        place.write v f >>= fun r => answers p call rounds rest r.2 := by
  simp only [answers_cons, exec_assign, bind_assoc, pure_bind]

end Step

namespace Place

theorem accessName_run {α : Type} {g : Access α} {c : Value} (known : f.get? x = some c) :
    accessName x g f = g c >>= fun r => pure (r.1, f.assign x r.2) := by
  rw [accessName, Step.bind_run, show (get : Step Frame) f = pure (f, f) from rfl, pure_bind]
  dsimp only
  rw [known]
  simp only [Step.bind_run, Step.lift_run, bind_assoc, pure_bind]
  rfl

theorem write_named {c : Value} (known : f.get? x = some c) :
    write (.named x) v f = pure ((), f.assign x v) :=
  accessName_run known

-- What is in a container after an item of it was set.
def setItem (container index v : Value) : Exec Value :=
  accessItem index (fun _ => pure ((), v)) container >>= fun r => pure r.2

theorem write_item {c i : Value} (known : f.get? x = some c) :
    write (.item (.named x) i) v f = setItem c i v >>= fun w => pure ((), f.assign x w) := by
  rw [setItem, bind_assoc]
  exact accessName_run known

theorem write_field {address : Nat} {member : String} :
    write (.field address member) v f =
      modify (·.setField address member v) >>= fun _ => pure ((), f) := by
  funext m
  exact congrArg (EStateM.Result.ok ((), f)) Machine.setField_setField

end Place

-- The names of builtin functions are not declared as functions, and all named types are integers.
structure Program.Plain (p : Program) : Prop where
  function : ∀ name ∈ ["len", "make", "append", "panic"], p.function? name = none
  underlying : ∀ {name type}, p.underlying? name = some type → type = .int

namespace Exec

variable {α : Type}

-- Where the name of a builtin function is that of a variable, a call of it fails.
def guard (p : Program) (f : Frame) (name : String) (fault : ExecFault) : Exec Unit := do
  if (← binding? f name).isSome then
    fail (if (p.underlying? name).isSome then fault else .undefined name)

-- The length of a value, unless `len` means something else.
def lengthIn (p : Program) (f : Frame) (v : Value) : Exec Value := do
  if (← binding? f "len").isSome then
    if (p.underlying? "len").isSome then ofExcept (Value.convert "int" v)
    else fail (.undefined "len")
  else length v

-- What the code does that gives up on an unknown option.
def giveUp (p : Program) (f : Frame) : Exec α := do
  guard p f "panic" (.type (.conversion "int" (.str "Unknown select value")))
  fail (.panicked (.str "Unknown select value"))

-- Looks a key up in a table that a variable holds.
def lookUpIn (p : Program) (f : Frame) (table : String) (key : Value) : Exec Value := do
  match ← orFail (.undefined table) (← binding? f table) with
  | .map address =>
    let key ← mapKey key
    match ((← get).map address).get? key with
    | some v => return v
    | none => giveUp p f
  | v => do
    let _ ← item v key
    failType (.valueCount 2 1)

theorem binding?_congr {f' : Frame} (same : f'.get? x = f.get? x) :
    binding? f' x = binding? f x := by
  rw [binding?, same, binding?]

theorem guard_congr {f' : Frame} (same : f'.get? x = f.get? x) (fault : ExecFault) :
    guard p f' x fault = guard p f x fault := by
  rw [guard, binding?_congr same, guard]

theorem lengthIn_congr {f' : Frame} (same : f'.get? "len" = f.get? "len") :
    lengthIn p f' v = lengthIn p f v := by
  rw [lengthIn, binding?_congr same, lengthIn]

theorem giveUp_congr {f' : Frame} (same : f'.get? "panic" = f.get? "panic") :
    (giveUp p f' : Exec α) = giveUp p f := by
  rw [giveUp, guard_congr same, giveUp]

theorem lookUpIn_congr {f' : Frame} {table : String} {key : Value}
    (same : f'.get? table = f.get? table) (same' : f'.get? "panic" = f.get? "panic") :
    lookUpIn p f' table key = lookUpIn p f table key := by
  simp only [lookUpIn, binding?_congr same, giveUp_congr same']

-- Nothing comes after giving up.
theorem giveUp_bind {β : Type} (k : α → Exec β) : (giveUp p f >>= k) = giveUp p f := by
  simp only [giveUp, bind_assoc]
  rfl

variable (plain : p.Plain)

include plain

-- Where a variable has the name of a builtin function, a call is a conversion at best.
theorem callNamed_builtin {name : String} {b : Builtin} {written : List Expr}
    {args : List (Exec Value)} (builtin : name ∈ ["len", "make", "append", "panic"])
    (known : Builtin.of? name written.length = some b) :
    callNamed p call f name written args = binding? f name >>= fun found =>
      if found.isSome then
        match p.underlying? name, args with
        | some _, [x] => x >>= fun v => ofExcept (Value.convert "int" v) >>= fun w => pure [w]
        | some _, _ => failType (.conversionCount name)
        | none, _ => fail (.undefined name)
      else callBuiltin p b written args >>= fun v => pure [v] := by
  simp only [callNamed, plain.function name builtin, Option.isSome_none, Bool.or_false]
  refine bind_congr (m := Exec) fun found => ?_
  cases found with
  | none => simp only [Option.isSome_none, Bool.false_eq_true, if_false, known]
  | some _ =>
    cases h : p.underlying? name with
    | none => rfl
    | some type =>
      rw [plain.underlying h]
      rcases args with _ | ⟨_, _ | _⟩ <;> rfl

theorem callNamed_length (w : Expr) (v : Value) :
    callNamed p call f "len" [w] [pure v] = lengthIn p f v >>= fun n => pure [n] := by
  rw [callNamed_builtin plain (b := .len) (by simp) rfl, lengthIn, bind_assoc]
  refine bind_congr (m := Exec) fun found => ?_
  cases found with
  | none => rfl
  | some _ => cases p.underlying? "len" <;> rfl

theorem callNamed_make (element : TypeExpr) (w : Expr) (ws : List Expr) (size : Exec Value)
    (first : Exec Value) (more : List (Exec Value)) :
    callNamed p call f "make" (.typeOperand span (.slice element) :: w :: ws)
        (first :: size :: more) =
      guard p f "make" (.type (.conversionCount "make")) >>= fun _ => size >>= fun n =>
        pure [.slice (List.replicate (n.int?.getD 0).toInt.toNat (p.zero element))] := by
  rw [callNamed_builtin plain (b := .make) (by simp) (by simp [Builtin.of?]), guard, bind_assoc]
  refine bind_congr (m := Exec) fun found => ?_
  cases found with
  | none =>
    simp only [Option.isSome_none, Bool.false_eq_true, if_false, callBuiltin, bind_assoc, pure_bind]
  | some _ => cases p.underlying? "make" <;> rfl

theorem callNamed_append (w w' : Expr) (items : List Value) (x : Exec Value) :
    callNamed p call f "append" [w, w'] [pure (.slice items), x] =
      guard p f "append" (.type (.conversionCount "append")) >>= fun _ => x >>= fun v =>
        pure [.slice (items ++ [v])] := by
  rw [callNamed_builtin plain (b := .append) (by simp) (by simp [Builtin.of?]), guard, bind_assoc]
  refine bind_congr (m := Exec) fun found => ?_
  cases found with
  | none =>
    simp only [Option.isSome_none, Bool.false_eq_true, if_false, callBuiltin, appendable, all,
      bind_assoc, pure_bind]
  | some _ => cases p.underlying? "append" <;> rfl

theorem callNamed_panic (w : Expr) :
    callNamed p call f "panic" [w] [pure (.str "Unknown select value")] = giveUp p f := by
  rw [callNamed_builtin plain (b := .panic) (by simp) rfl, giveUp, guard, bind_assoc]
  refine bind_congr (m := Exec) fun found => ?_
  cases found with
  | none => rfl
  | some _ => cases p.underlying? "panic" <;> rfl

end Exec

namespace Code

variable (plain : p.Plain)

include plain

theorem eval_make (element : TypeExpr) (size : Expr) (more : List Expr) :
    Exec.eval p call f (make span (.slice element) (size :: more)) =
      Exec.guard p f "make" (.type (.conversionCount "make")) >>= fun _ =>
        Exec.eval p call f size >>= fun n =>
          pure (.slice (List.replicate (n.int?.getD 0).toInt.toNat (p.zero element))) := by
  rw [make, eval_apply, Exec.actions, Exec.actions, Exec.callNamed_make plain]
  simp only [bind_assoc]
  rfl

theorem eval_length (value : Exec.eval p call f e = pure v) :
    Exec.eval p call f (apply span "len" [e]) = Exec.lengthIn p f v := by
  rw [eval_apply, Exec.actions, Exec.actions, value, Exec.callNamed_length plain, bind_assoc]
  exact bind_pure _

end Code

end

end FieldAccess
