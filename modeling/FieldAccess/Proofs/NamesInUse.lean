import FieldAccess.Proofs.TemporaryNames

namespace FieldAccess

theorem namesOfExprs_eq (es : List Expr) : namesOfExprs es = es.flatMap Expr.names := by
  induction es <;> simp_all [namesOfExprs]

theorem namesOfStmts_eq (ss : List Stmt) : namesOfStmts ss = ss.flatMap Stmt.names := by
  induction ss <;> simp_all [namesOfStmts]

namespace Element

def operands (e : Element) : List Expr :=
  e.key?.toList ++ [e.value]

theorem sizeOf_operands {e : Element} {part : Expr} (h : part ∈ e.operands) :
    sizeOf part < sizeOf e := by
  cases e <;> simp only [operands, key?, value, Option.toList, List.nil_append, List.cons_append,
    List.mem_cons, List.not_mem_nil, or_false] at h
  case positional =>
    subst h
    simp
  case keyed =>
    rcases h with rfl | rfl
    all_goals
      rw [keyed.sizeOf_spec]
      omega

end Element

namespace Expr

def operands : Expr → List Expr
  | ident _ _ | literal _ _ | typeOperand _ _ => []
  | select _ base _ => [base]
  | call _ callee _ args => callee :: args
  | index _ base i => [base, i]
  | binary _ _ left right => [left, right]
  | unary _ _ operand => [operand]
  | paren _ inner => [inner]
  | composite _ _ elements => elements.flatMap (·.operands)

theorem sizeOf_operands {e part : Expr} (h : part ∈ e.operands) : sizeOf part < sizeOf e := by
  cases e <;> simp only [operands, List.mem_cons, List.not_mem_nil, or_false] at h
  case call =>
    rcases h with rfl | h
    · simp; omega
    · have := List.sizeOf_lt_of_mem h
      simp; omega
  case composite =>
    obtain ⟨element, mem, h⟩ := List.mem_flatMap.1 h
    have := Element.sizeOf_operands h
    have := List.sizeOf_lt_of_mem mem
    simp; omega
  case index | binary =>
    rcases h with rfl | rfl
    all_goals
      simp only [index.sizeOf_spec, binary.sizeOf_spec]
      omega
  all_goals
    subst h
    simp only [select.sizeOf_spec, unary.sizeOf_spec, paren.sizeOf_spec]
    omega

theorem operands_induction {P : Expr → Prop} (step : ∀ e, (∀ part ∈ e.operands, P part) → P e)
    (e : Expr) : P e :=
  step e fun part _ => operands_induction step part
termination_by e
decreasing_by exact sizeOf_operands ‹_›

-- One expression stands in another, at any depth.
inductive Within : Expr → Expr → Prop
  | self (e : Expr) : Within e e
  | operand {e part whole : Expr} : part ∈ whole.operands → Within e part → Within e whole

theorem namesOfElements_eq (es : List Element) :
    namesOfElements es = (es.flatMap (·.operands)).flatMap names := by
  induction es with
  | nil => rfl
  | cons e es ih =>
    cases e <;> simp [namesOfElements, Element.operands, Element.key?, Element.value, ih]

theorem names_eq (e : Expr) : e.names = e.ident?.toList ++ e.operands.flatMap names := by
  cases e <;> simp [names, ident?, operands, namesOfExprs_eq, namesOfElements_eq]

-- The names in an expression are its identifiers.
theorem mem_names_iff {x : String} (e : Expr) :
    x ∈ e.names ↔ ∃ span, (ident span x).Within e := by
  constructor
  · intro h
    induction e using operands_induction with
    | step e ih =>
      rw [names_eq, List.mem_append, List.mem_flatMap] at h
      rcases h with own | ⟨part, mem, h⟩
      · cases e <;> simp [ident?] at own
        case ident span name => exact ⟨span, own ▸ .self _⟩
      · obtain ⟨span, within⟩ := ih part mem h
        exact ⟨span, .operand mem within⟩
  · rintro ⟨span, h⟩
    induction h with
    | self => exact List.mem_singleton_self x
    | operand mem _ ih =>
      rw [names_eq]
      exact List.mem_append_right _ (List.mem_flatMap.2 ⟨_, mem, ih⟩)

end Expr

namespace Stmt

def operands : Stmt → List Expr
  | empty _ | breakLoop _ | continueLoop _ | block _ => []
  | expr e => [e]
  | assign _ targets _ values => targets ++ values
  | step _ target _ => [target]
  | var _ _ _ values => values
  | ifElse _ _ cond _ _ => [cond]
  | forLoop _ _ cond _ _ => cond.toList
  | range _ key value _ iterable _ => key.toList ++ value.toList ++ [iterable]
  | switch _ _ tag cases => tag.toList ++ cases.flatMap (·.values)
  | ret _ values => values

def parts : Stmt → List Stmt
  | block body => body.statements
  | ifElse _ init _ body orElse => init.toList ++ body.statements ++ orElse.toList
  | forLoop _ init _ post body => init.toList ++ post.toList ++ body.statements
  | range _ _ _ _ _ body => body.statements
  | switch _ init _ cases => init.toList ++ cases.flatMap (·.body)
  | _ => []

def varNames : Stmt → List String
  | var _ names _ _ => names
  | _ => []

theorem sizeOf_parts {s part : Stmt} (h : part ∈ s.parts) : sizeOf part < sizeOf s := by
  have inBlock {b : Block} (h : part ∈ b.statements) : sizeOf part < sizeOf b := by
    cases b
    have := List.sizeOf_lt_of_mem h
    simp [Block.statements] at *; omega
  have inOption {o : Option Stmt} (h : o = some part) : sizeOf part < sizeOf o := by
    simp [h]
  have inCases {cs : List Case} (h : ∃ c ∈ cs, part ∈ c.body) : sizeOf part < sizeOf cs := by
    obtain ⟨⟨at_, values, body⟩, mem, h⟩ := h
    have := List.sizeOf_lt_of_mem mem
    have := List.sizeOf_lt_of_mem (show part ∈ body from h)
    simp at *; omega
  cases s <;> simp only [parts, List.mem_append, Option.mem_toList, List.mem_flatMap,
    List.not_mem_nil] at h
  case block => simpa using Nat.lt_add_left 1 (inBlock h)
  case ifElse =>
    rcases h with (h | h) | h
    · have := inOption h; simp; omega
    · have := inBlock h; simp; omega
    · have := inOption h; simp; omega
  case forLoop =>
    rcases h with (h | h) | h
    · have := inOption h; simp; omega
    · have := inOption h; simp; omega
    · have := inBlock h; simp; omega
  case range => have := inBlock h; simp; omega
  case switch =>
    rcases h with h | h
    · have := inOption h; simp; omega
    · have := inCases h; simp; omega

theorem parts_induction {P : Stmt → Prop} (step : ∀ s, (∀ part ∈ s.parts, P part) → P s)
    (s : Stmt) : P s :=
  step s fun part _ => parts_induction step part
termination_by s
decreasing_by exact sizeOf_parts ‹_›

-- One statement stands in another, at any depth.
inductive Within : Stmt → Stmt → Prop
  | self (s : Stmt) : Within s s
  | part {s part whole : Stmt} : part ∈ whole.parts → Within s part → Within s whole

theorem mem_names_step {x : String} (s : Stmt) :
    x ∈ s.names ↔
      x ∈ s.varNames ∨ x ∈ s.operands.flatMap Expr.names ∨ x ∈ s.parts.flatMap names := by
  have block (b : Block) : b.names = b.statements.flatMap names := by
    cases b
    exact namesOfStmts_eq _
  have option (o : Option Stmt) : namesOfOption o = o.toList.flatMap names := by
    cases o <;> simp [namesOfOption]
  have caseList (cs : List Case) : x ∈ namesOfCases cs ↔
      x ∈ (cs.flatMap (·.values)).flatMap Expr.names ∨ x ∈ (cs.flatMap (·.body)).flatMap names := by
    induction cs with
    | nil => simp [namesOfCases]
    | cons c cs ih =>
      obtain ⟨at_, values, body⟩ := c
      simp only [namesOfCases, namesOfExprs_eq, namesOfStmts_eq, List.mem_append, ih,
        List.flatMap_cons, List.flatMap_append, Case.values, Case.body]
      tauto
  cases s <;> simp only [names, varNames, operands, parts, namesOfExprs_eq, block, option, caseList,
    List.mem_append, List.flatMap_append, List.flatMap_singleton, List.flatMap_nil, List.not_mem_nil]
  all_goals tauto

-- The names in a statement are those of the identifiers and of the `var` statements in it.
theorem mem_names_iff {x : String} (s : Stmt) :
    x ∈ s.names ↔ ∃ s', Within s' s ∧
      (x ∈ s'.varNames ∨ ∃ e ∈ s'.operands, ∃ span, (Expr.ident span x).Within e) := by
  have step (s : Stmt) : x ∈ s.names ↔ (x ∈ s.varNames ∨ ∃ e ∈ s.operands, ∃ span,
      (Expr.ident span x).Within e) ∨ ∃ part ∈ s.parts, x ∈ part.names := by
    rw [mem_names_step, List.mem_flatMap, List.mem_flatMap, or_assoc]
    simp only [Expr.mem_names_iff]
  constructor
  · intro h
    induction s using parts_induction with
    | step s ih =>
      rcases (step s).1 h with own | ⟨part, mem, h⟩
      · exact ⟨s, .self s, own⟩
      · obtain ⟨s', within, own⟩ := ih part mem h
        exact ⟨s', .part mem within, own⟩
  · rintro ⟨s', within, own⟩
    induction within with
    | self => exact (step _).2 (.inl own)
    | part mem _ ih => exact (step _).2 (.inr ⟨_, mem, ih⟩)

end Stmt

namespace Block

-- A statement stands in a block, at any depth.
def Holds (b : Block) (s : Stmt) : Prop :=
  ∃ top ∈ b.statements, s.Within top

-- An expression stands in a block, at any depth and in any position.
def Evaluates (b : Block) (e : Expr) : Prop :=
  ∃ s, b.Holds s ∧ ∃ operand ∈ s.operands, e.Within operand

theorem mem_names_iff {x : String} (b : Block) :
    x ∈ b.names ↔ (∃ s, b.Holds s ∧ x ∈ s.varNames) ∨ ∃ span, b.Evaluates (.ident span x) := by
  have top : x ∈ b.names ↔ ∃ s ∈ b.statements, x ∈ s.names := by
    cases b
    rw [names, namesOfStmts_eq, List.mem_flatMap]
    rfl
  simp only [top, Stmt.mem_names_iff, Holds, Evaluates]
  constructor
  · rintro ⟨s, mem, s', within, own | ⟨e, he, span, h⟩⟩
    · exact .inl ⟨s', ⟨s, mem, within⟩, own⟩
    · exact .inr ⟨span, s', ⟨s, mem, within⟩, e, he, h⟩
  · rintro (⟨s', ⟨s, mem, within⟩, own⟩ | ⟨span, s', ⟨s, mem, within⟩, e, he, h⟩)
    · exact ⟨s, mem, s', within, .inl own⟩
    · exact ⟨s, mem, s', within, .inr ⟨e, he, span, h⟩⟩

end Block

namespace Temporaries

theorem length_fresh (hints : List String) (temps : Temporaries) :
    (hints.mapM fresh temps).1.length = hints.length := by
  induction hints generalizing temps with
  | nil => rfl
  | cons hint hints ih =>
    rw [List.mapM_cons]
    exact congrArg (· + 1) (ih (fresh hint temps).2)

-- Any number of temporaries that a method draws differ from one another and from every name that
-- the method uses.
theorem fresh_names_apart (f : FuncDecl) (hints : List String) :
    let drawn := (hints.mapM fresh (ofMethod f)).1
    drawn.length = hints.length ∧ drawn.Nodup ∧ ∀ x ∈ drawn,
      (∀ p ∈ f.receiver, x ≠ p.name) ∧ (∀ p ∈ f.params, x ≠ p.name) ∧
      (∀ p ∈ f.typeParams, x ≠ p.name) ∧ x ∉ predeclared ∧
      (∀ span names type values, f.body.Holds (.var span names type values) → x ∉ names) ∧
      ∀ span name, f.body.Evaluates (.ident span name) → x ≠ name := by
  have drawn : Draws (hints.mapM fresh) (·.flatMap ([·])) := .mapM Draws.fresh_name hints
  refine ⟨length_fresh hints _, by simpa using drawn.nodup (ofMethod f), fun x hx => ?_⟩
  have free := (drawn.fresh (ofMethod f) x (by simpa using hx)).1
  simp only [ofMethod, FuncDecl.names, List.mem_append, not_or] at free
  obtain ⟨predeclared, ⟨⟨receiver, params⟩, typeParams⟩, body⟩ := free
  rw [Block.mem_names_iff, not_or] at body
  refine ⟨fun p hp e => receiver ?_, fun p hp e => params ?_, fun p hp e => typeParams ?_,
    predeclared, fun span names type values h mem => body.1 ⟨_, h, mem⟩,
    fun span name h e => body.2 ⟨span, e ▸ h⟩⟩
  · exact e ▸ List.mem_map_of_mem (Option.mem_toList.2 hp)
  · exact e ▸ List.mem_map_of_mem hp
  · exact e ▸ List.mem_map_of_mem hp

end Temporaries

end FieldAccess
