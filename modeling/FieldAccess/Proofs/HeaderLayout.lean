import FieldAccess.Eval.Stmt
import FieldAccess.Redirect.Header
import FieldAccess.Redirect.Shorthand

namespace FieldAccess

-- The statements that may stand in a header.
def Stmt.isSimple : Stmt → Bool
  | .empty _ | .expr _ | .assign _ _ _ _ | .step _ _ _ => true
  | _ => false

-- A header with the statement in it, and what is known of the names in scope there.
structure HeaderSlot (σ : Type) where
  isPost : Bool
  oracle : σ
  held : Option Stmt

-- The statements of some code, taken apart into headers and members of lists. A construct is
-- represented by its parts, a loop over elements also by its head, with an empty body. An else
-- branch that is neither a block nor a further `if` is a stray.
structure Layout (σ : Type) where
  slots : List (HeaderSlot σ) := []
  listed : List (σ × Stmt) := []
  strays : List Stmt := []

namespace Layout

variable {σ : Type} (a b : Layout σ)

def append : Layout σ :=
  ⟨a.slots ++ b.slots, a.listed ++ b.listed, a.strays ++ b.strays⟩

instance : Append (Layout σ) := ⟨append⟩

@[simp]
theorem slots_append : (a ++ b).slots = a.slots ++ b.slots := rfl

@[simp]
theorem listed_append : (a ++ b).listed = a.listed ++ b.listed := rfl

@[simp]
theorem strays_append : (a ++ b).strays = a.strays ++ b.strays := rfl

@[simp]
theorem append_empty : a ++ ({} : Layout σ) = a := by
  change Layout.mk _ _ _ = Layout.mk _ _ _
  simp

-- Which headers there are, and whether they hold a simple statement or another one.
def kinds : List (Bool × Option Bool) :=
  a.slots.map fun slot => (slot.isPost, slot.held.map Stmt.isSimple)

@[simp]
theorem kinds_append : (a ++ b).kinds = a.kinds ++ b.kinds :=
  List.map_append

-- Every header that holds a statement holds a simple one.
def Legal : Prop :=
  ∀ kind ∈ a.kinds, kind.2 ≠ some false

theorem legal_append : (a ++ b).Legal ↔ a.Legal ∧ b.Legal := by
  rw [Legal, kinds_append, List.forall_mem_append]
  rfl

theorem legal_listed (ss : List (σ × Stmt)) : Layout.Legal { listed := ss } :=
  List.forall_mem_nil _

end Layout

-- A source of types that knows nothing.
instance : TypeOracle Unit where
  typeOf? _ _ := none
  isField _ _ _ := false
  declare _ _ := ()

namespace Stmt

variable {σ : Type} [TypeOracle σ]

mutual

def layout (o : σ) (s : Stmt) : Layout σ :=
  match s with
  | .block body => blockLayout o body
  | .ifElse _ init _ body orElse =>
    let inner := TypeOracle.declareHeader o init
    { slots := [⟨false, o, init⟩] } ++ blockLayout inner body ++ branchLayout inner orElse
  | .forLoop _ init _ post body =>
    let inner := TypeOracle.declareHeader o init
    { slots := [⟨false, o, init⟩, ⟨true, inner, post⟩] } ++ blockLayout inner body
  | .range span key value define iterable body =>
    { listed := [(o, .range span key value define iterable (.mk body.span []))] } ++
      blockLayout (TypeOracle.declare o s) body
  | .switch _ init _ cases =>
    let inner := TypeOracle.declareHeader o init
    { slots := [⟨false, o, init⟩] } ++ casesLayout inner cases
  | _ => { listed := [(o, s)] }

def branchLayout (o : σ) : Option Stmt → Layout σ
  | none => {}
  | some s =>
    match s with
    | .ifElse _ _ _ _ _ | .block _ => layout o s
    | _ => { strays := [s] }

def blockLayout (o : σ) : Block → Layout σ
  | .mk _ statements => listLayout o statements

def listLayout (o : σ) : List Stmt → Layout σ
  | [] => {}
  | s :: rest => layout o s ++ listLayout (TypeOracle.declare o s) rest

def casesLayout (o : σ) : List Case → Layout σ
  | [] => {}
  | .mk _ _ body :: rest => listLayout o body ++ casesLayout o rest

end

theorem layout_of_isSimple (o : σ) {s : Stmt} (h : s.isSimple = true) :
    layout o s = { listed := [(o, s)] } := by
  cases s <;> first | rfl | cases h

theorem listLayout_append (ss ss' : List Stmt) :
    listLayout () (ss ++ ss') = listLayout () ss ++ listLayout () ss' := by
  induction ss with
  | nil => rfl
  | cons s rest ih =>
    change layout () s ++ listLayout () (rest ++ ss') =
      layout () s ++ listLayout () rest ++ listLayout () ss'
    rw [ih]
    change Layout.mk _ _ _ = Layout.mk _ _ _
    simp [List.append_assoc]

theorem listLayout_single (s : Stmt) : listLayout () [s] = layout () s :=
  Layout.append_empty _

theorem listLayout_of_isSimple {ss : List Stmt} (h : ∀ s ∈ ss, s.isSimple = true) :
    listLayout () ss = { listed := ss.map ((), ·) } := by
  induction ss with
  | nil => rfl
  | cons s rest ih =>
    change layout () s ++ listLayout () rest = _
    rw [ih fun s mem => h s (List.mem_cons_of_mem _ mem),
      layout_of_isSimple () (h s (List.mem_cons_self ..))]
    rfl

theorem blockLayout_eq (o : σ) (b : Block) : blockLayout o b = listLayout o b.statements := by
  cases b
  rfl

-- The layout of a body with statements in front or at the end.
theorem blockLayout_before {ss : List Stmt} (h : ∀ s ∈ ss, s.isSimple = true) (span : Span)
    (b : Block) : blockLayout () (.mk span (ss ++ b.statements)) =
      ({ listed := ss.map ((), ·) } : Layout Unit) ++ blockLayout () b := by
  rw [blockLayout_eq, blockLayout_eq, ← listLayout_of_isSimple h]
  exact listLayout_append ..

theorem blockLayout_after {ss : List Stmt} (h : ∀ s ∈ ss, s.isSimple = true) (span : Span)
    (b : Block) : blockLayout () (.mk span (b.statements ++ ss)) =
      blockLayout () b ++ { listed := ss.map ((), ·) } := by
  rw [blockLayout_eq, blockLayout_eq, ← listLayout_of_isSimple h]
  exact listLayout_append ..

-- The layout of a construct that statements were moved in front of.
theorem listLayout_moved {ss : List Stmt} (h : ∀ s ∈ ss, s.isSimple = true) (s : Stmt) :
    listLayout () (ss ++ [s]) = ({ listed := ss.map ((), ·) } : Layout Unit) ++ layout () s := by
  rw [listLayout_append, listLayout_of_isSimple h, listLayout_single]

section

variable {τ : Type} [TypeOracle τ]

theorem isSimple_expand (s : Stmt) : (expand s).isSimple = s.isSimple := by
  cases s with
  | assign _ _ op _ =>
    cases op with
    | assign | define => rfl
    | compound op =>
      rw [expand]
      split <;> rfl
  | step =>
    rw [expand]
    split <;> rfl
  | _ => rfl

theorem map_isSimple_expandOption (s : Option Stmt) :
    (expandOption s).map isSimple = s.map isSimple := by
  cases s with
  | none => rfl
  | some s => exact congrArg some (isSimple_expand s)

mutual

-- Writing out shorthands changes no header's kind.
theorem kinds_expand (o : σ) (o' : τ) : (s : Stmt) →
    (layout o (expand s)).kinds = (layout o' s).kinds
  | .empty _ | .expr _ | .breakLoop _ | .continueLoop _ | .var _ _ _ _ | .ret _ _ => rfl
  | .assign _ targets op _ => by
    cases op with
    | assign | define => rfl
    | compound op =>
      rw [expand]
      split <;> rfl
  | .step _ target _ => by
    rw [expand]
    split <;> rfl
  | .block body => kinds_expandBlock o o' body
  | .ifElse _ init _ body orElse => by
    rw [expand, layout, layout, Layout.kinds_append, Layout.kinds_append, Layout.kinds_append,
      Layout.kinds_append, kinds_expandBlock _ (TypeOracle.declareHeader o' init) body,
      kinds_expandBranch _ (TypeOracle.declareHeader o' init) orElse]
    simp [Layout.kinds, map_isSimple_expandOption]
  | .forLoop _ init _ post body => by
    rw [expand, layout, layout, Layout.kinds_append, Layout.kinds_append,
      kinds_expandBlock _ (TypeOracle.declareHeader o' init) body]
    simp [Layout.kinds, map_isSimple_expandOption]
  | .range span key value define iterable body => by
    rw [expand, layout, layout, Layout.kinds_append, Layout.kinds_append,
      kinds_expandBlock _ (TypeOracle.declare o' (.range span key value define iterable body)) body]
    rfl
  | .switch _ init _ cases => by
    rw [expand, layout, layout, Layout.kinds_append, Layout.kinds_append,
      kinds_expandCases _ (TypeOracle.declareHeader o' init) cases]
    simp [Layout.kinds, map_isSimple_expandOption]
termination_by structural s => s

theorem kinds_expandBranch (o : σ) (o' : τ) : (s : Option Stmt) →
    (branchLayout o (expandOption s)).kinds = (branchLayout o' s).kinds
  | none => rfl
  | some s => by
    have walked := kinds_expand o o' s
    cases s
    case ifElse | block => exact walked
    case assign span targets op values =>
      cases op with
      | assign | define => rfl
      | compound op =>
        rw [expandOption, expand]
        split <;> rfl
    case step span target increment =>
      rw [expandOption, expand]
      split <;> rfl
    all_goals rfl
termination_by structural s => s

theorem kinds_expandBlock (o : σ) (o' : τ) : (b : Block) →
    (blockLayout o (expandBlock b)).kinds = (blockLayout o' b).kinds
  | .mk _ statements => kinds_expandList o o' statements
termination_by structural s => s

theorem kinds_expandList (o : σ) (o' : τ) : (ss : List Stmt) →
    (listLayout o (expandList ss)).kinds = (listLayout o' ss).kinds
  | [] => rfl
  | s :: rest => by
    rw [expandList, listLayout, listLayout, Layout.kinds_append, Layout.kinds_append,
      kinds_expand o o' s, kinds_expandList _ (TypeOracle.declare o' s) rest]
termination_by structural s => s

theorem kinds_expandCases (o : σ) (o' : τ) : (cs : List Case) →
    (casesLayout o (expandCases cs)).kinds = (casesLayout o' cs).kinds
  | [] => rfl
  | .mk _ _ body :: rest => by
    rw [expandCases, casesLayout, casesLayout, Layout.kinds_append, Layout.kinds_append,
      kinds_expandList o o' body, kinds_expandCases o o' rest]
termination_by structural s => s

end

end

end Stmt

end FieldAccess
