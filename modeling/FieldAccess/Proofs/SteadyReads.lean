import FieldAccess.Proofs.PlaceSimulation
import FieldAccess.Syntax.Names

namespace FieldAccess

-- The same value of each of some variables.
def Frame.Agrees (N : List String) (f f' : Frame) : Prop :=
  ∀ x ∈ N, f'.get? x = f.get? x

namespace Exec

section

variable {p : Program} {call : CallHandler} {f f' : Frame} {N : List String}

theorem binding?_agrees (h : f.Agrees N f') {x : String} (hx : x ∈ N) :
    binding? f' x = binding? f x := by
  rw [binding?, binding?, h x hx]

theorem callResults_agrees (h : f.Agrees N f') {callee : Expr} (sub : callee.names ⊆ N)
    (receiver : Exec Value) (written : List Expr) (args : List (Exec Value)) :
    callResults p call f' callee receiver written args =
      callResults p call f callee receiver written args := by
  cases callee with
  | ident span x =>
    have hx : x ∈ N := sub (List.mem_singleton_self x)
    simp only [callResults, callNamed, binding?_agrees h hx]
  | _ => rfl

mutual

-- An expression depends on the variables that it names.
theorem eval_agrees (h : f.Agrees N f') :
    ∀ e : Expr, e.names ⊆ N → eval p call f' e = eval p call f e
  | .ident _ x, sub => by
    rw [eval, eval, binding?_agrees h (sub (List.mem_singleton_self x))]
  | .literal _ _, _ => by rw [eval, eval]
  | .select _ base _, sub => by rw [eval, eval, eval_agrees h base sub]
  | .call _ callee _ args, sub => by
    obtain ⟨hc, ha⟩ := List.append_subset.1 sub
    rw [eval, eval, callResults_agrees h hc, receiver_agrees h callee hc, actions_agrees h args ha]
  | .index _ base i, sub => by
    obtain ⟨hb, hi⟩ := List.append_subset.1 sub
    rw [eval, eval, eval_agrees h base hb, eval_agrees h i hi]
  | .binary _ op left right, sub => by
    obtain ⟨hl, hr⟩ := List.append_subset.1 sub
    cases op <;> simp only [eval, eval_agrees h left hl, eval_agrees h right hr]
  | .unary _ _ operand, sub => by rw [eval, eval, eval_agrees h operand sub]
  | .paren _ inner, sub => by rw [eval, eval, eval_agrees h inner sub]
  | .composite _ type elements, sub => by
    cases type <;> simp only [eval, entries_agrees h elements sub]
  | .typeOperand _ _, _ => by rw [eval, eval]

theorem receiver_agrees (h : f.Agrees N f') :
    ∀ e : Expr, e.names ⊆ N → receiver p call f' e = receiver p call f e
  | .select _ base _, sub => by rw [receiver, receiver, eval_agrees h base sub]
  | .ident _ _, _ | .literal _ _, _ | .call _ _ _ _, _ | .index _ _ _, _ | .binary _ _ _ _, _
  | .unary _ _ _, _ | .paren _ _, _ | .composite _ _ _, _ | .typeOperand _ _, _ => by
    rw [receiver, receiver] <;> simp

theorem actions_agrees (h : f.Agrees N f') :
    ∀ es : List Expr, namesOfExprs es ⊆ N → actions p call f' es = actions p call f es
  | [], _ => rfl
  | e :: rest, sub => by
    obtain ⟨he, hr⟩ := List.append_subset.1 sub
    rw [actions, actions, eval_agrees h e he, actions_agrees h rest hr]

theorem entries_agrees (h : f.Agrees N f') :
    ∀ es : List Element, namesOfElements es ⊆ N → entries p call f' es = entries p call f es
  | [], _ => rfl
  | .positional value :: rest, sub => by
    obtain ⟨hv, hr⟩ := List.append_subset.1 sub
    rw [entries, entries, eval_agrees h value hv, entries_agrees h rest hr]
  | .keyed key value :: rest, sub => by
    obtain ⟨hkv, hr⟩ := List.append_subset.1 sub
    obtain ⟨hk, hv⟩ := List.append_subset.1 hkv
    rw [entries, entries, eval_agrees h key hk, eval_agrees h value hv, entries_agrees h rest hr]

end

theorem evalAll_agrees (h : f.Agrees N f') {e : Expr} (sub : e.names ⊆ N) :
    evalAll p call f' e = evalAll p call f e := by
  unfold evalAll
  split
  · obtain ⟨hc, ha⟩ := List.append_subset.1 sub
    rw [callResults_agrees h hc, receiver_agrees h _ hc, actions_agrees h _ ha]
  · obtain ⟨hb, hi⟩ := List.append_subset.1 sub
    rw [eval_agrees h _ hb, eval_agrees h _ hi]
  · rw [eval_agrees h _ sub]

theorem evalFor_agrees (h : f.Agrees N f') (count : Nat) {es : List Expr}
    (sub : namesOfExprs es ⊆ N) : evalFor p call f' count es = evalFor p call f count es := by
  unfold evalFor
  split
  · obtain ⟨he, -⟩ := List.append_subset.1 sub
    rw [evalAll_agrees h he, eval_agrees h _ he]
  · rw [actions_agrees h _ sub]

end

end Exec

-- Where a target stands depends on the variables that it names.
theorem Place.resolve_agrees {p : Program} {call : CallHandler} {f f' : Frame} {N : List String}
    (h : f.Agrees N f') : ∀ e : Expr, e.names ⊆ N → resolve p call f' e = resolve p call f e
  | .ident _ _, _ => by rw [resolve, resolve]
  | .paren _ inner, sub => by rw [resolve, resolve, resolve_agrees h inner sub]
  | .select _ base _, sub => by rw [resolve, resolve, Exec.eval_agrees h base sub]
  | .index _ base i, sub => by
    obtain ⟨hb, hi⟩ := List.append_subset.1 sub
    rw [resolve, resolve, resolve_agrees h base hb, Exec.eval_agrees h base hb,
      Exec.eval_agrees h i hi]
  | .literal _ _, _ | .call _ _ _ _, _ | .binary _ _ _ _, _ | .unary _ _ _, _
  | .composite _ _ _, _ | .typeOperand _ _, _ => by rw [resolve, resolve] <;> simp

namespace Exec

-- An evaluation that changes nothing, and gives the same after whatever a relation allows.
structure Steady {α : Type} (R : Machine → Machine → Prop) (x : Exec α) : Prop where
  reads : ∀ {m a m₁}, x m = .ok a m₁ → m₁ = m
  after : ∀ {m m₁ a}, R m m₁ → x m = .ok a m → x m₁ = .ok a m₁

namespace Steady

variable {α β : Type} {R : Machine → Machine → Prop} {x : Exec α}

theorem pure (a : α) : Steady R (pure a) where
  reads run := (ok_pure.1 run).2.symm
  after _ run := by
    rw [(ok_pure.1 run).1]
    rfl

theorem bind {k : α → Exec β} (hx : Steady R x) (hk : ∀ a, Steady R (k a)) :
    Steady R (x >>= k) where
  reads run := by
    obtain ⟨a, m₁, first, second⟩ := ok_bind.1 run
    rw [(hk a).reads second, hx.reads first]
  after rel run := by
    obtain ⟨a, m₁, first, second⟩ := ok_bind.1 run
    obtain rfl := hx.reads first
    exact ok_bind.2 ⟨a, _, hx.after rel first, (hk a).after rel second⟩

theorem literal {p : Program} {call : CallHandler} {f : Frame} {span : Span} {value : Literal} :
    Steady R (eval p call f (.literal span value)) := by
  rw [eval]
  exact .pure _

end Steady

-- How a machine may change while some expressions are evaluated, in any order and number.
inductive Reaches (p : Program) (call : CallHandler) (f : Frame) (es : List Expr) :
    Machine → Machine → Prop
  | refl (m : Machine) : Reaches p call f es m m
  | step {m m₁ m₂ : Machine} {e : Expr} {count : Nat} {vs : List Value} : e ∈ es →
      evalFor p call f count [e] m = .ok vs m₁ → Reaches p call f es m₁ m₂ →
      Reaches p call f es m m₂

namespace Reaches

variable {p : Program} {call : CallHandler} {f : Frame} {es es' : List Expr} {m m₁ m₂ : Machine}

theorem trans (h : Reaches p call f es m m₁) (h' : Reaches p call f es m₁ m₂) :
    Reaches p call f es m m₂ := by
  induction h with
  | refl => exact h'
  | step mem run _ ih => exact .step mem run (ih h')

theorem eval {e : Expr} {v : Value} (mem : e ∈ es) (run : eval p call f e m = .ok v m₁) :
    Reaches p call f es m m₁ := by
  have single : evalFor p call f 1 [e] m = .ok [v] m₁ := by
    rw [evalFor, if_neg (Nat.lt_irrefl 1)]
    exact ok_bind.2 ⟨v, m₁, run, rfl⟩
  exact .step mem single (.refl _)

end Reaches

end Exec

end FieldAccess
