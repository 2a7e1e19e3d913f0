import FieldAccess.Proofs.HeaderLayout
import FieldAccess.Proofs.Success
import FieldAccess.Source.Parser.Decl

namespace FieldAccess

namespace Parser

variable {stop : Span}

-- What a header may hold.
def Fits (held : Option Stmt) : Prop :=
  held.map Stmt.isSimple ≠ some false

theorem fits_some {s : Stmt} (h : s.isSimple = true) : Fits (some s) := by
  simp [Fits, h]

theorem fits_none : Fits none := nofun

theorem simpleAfter_isSimple {composites : Bool} {span : Span} {targets : List Expr}
    {ts : List Token} {s : Parsed Stmt (ts.length + 1)}
    (h : simpleAfter stop composites span targets ts = .ok s) : s.value.isSimple = true := by
  have alone {ts : List Token} {s : Parsed Stmt (ts.length + 1)}
      (h : simpleAfter.alone span targets ts = .ok s) : s.value.isSimple = true := by
    unfold simpleAfter.alone at h
    split at h
    · obtain rfl := Except.ok.inj h
      rfl
    · cases h
  have step {increment : Bool} {rest : List Token} {t : Token}
      {s : Parsed Stmt ((t :: rest).length + 1)}
      (h : simpleAfter.step span targets increment rest = .ok s) : s.value.isSimple = true := by
    unfold simpleAfter.step at h
    split at h
    · obtain rfl := Except.ok.inj h
      rfl
    · cases h
  unfold simpleAfter at h
  split at h
  · exact step h
  · exact step h
  · split at h
    · obtain ⟨values, _, h⟩ := ok_bind.1 h
      obtain rfl := ok_pure.1 h
      rfl
    · exact alone h
  · exact alone h

theorem simple_isSimple {composites : Bool} {ts : List Token} {s : Parsed Stmt ts.length}
    (h : simple stop composites ts = .ok s) : s.value.isSimple = true := by
  obtain ⟨⟨targets, rest, _⟩, _, h⟩ := ok_bind.1 h
  obtain ⟨s, parsed, h⟩ := ok_bind.1 h
  obtain rfl := ok_pure.1 h
  exact simpleAfter_isSimple (s := s) parsed

theorem simpleUnless_fits {mark : Symbol} {ts : List Token}
    {s : Parsed (Option Stmt) (ts.length + 1)} (h : simpleUnless stop mark ts = .ok s) :
    Fits s.value := by
  unfold simpleUnless at h
  split at h
  · obtain rfl := Except.ok.inj h
    exact fits_none
  · obtain ⟨s, parsed, h⟩ := ok_bind.1 h
    obtain rfl := ok_pure.1 h
    exact fits_some (simple_isSimple parsed)

theorem header_fits {ts : List Token} {head : Parsed (Option Stmt × Option Expr) (ts.length + 1)}
    (h : header stop ts = .ok head) : Fits head.value.1 := by
  unfold header at h
  split at h
  · obtain rfl := Except.ok.inj h
    exact fits_none
  · obtain ⟨⟨first, rest, h₁⟩, parsed, h⟩ := ok_bind.1 h
    have fits := simpleUnless_fits parsed
    dsimp only at h
    split at h
    · obtain ⟨value, _, h⟩ := ok_bind.1 h
      obtain rfl := ok_pure.1 h
      exact fits
    · split at h
      · obtain rfl := ok_pure.1 h
        exact fits_none
      · cases h

def LoopHeader.Legal : LoopHeader → Prop
  | .range _ _ _ _ => True
  | .clauses init _ post => Fits init ∧ Fits post

theorem loopClauses_legal {init : Option Stmt} (fits : Fits init) {ts : List Token}
    {head : Parsed LoopHeader ts.length} (h : loopClauses stop init ts = .ok head) :
    head.value.Legal := by
  obtain ⟨⟨cond, rest, h₁⟩, _, h⟩ := ok_bind.1 h
  obtain ⟨⟨_, rest, h₂⟩, _, h⟩ := ok_bind.1 h
  obtain ⟨post, parsed, h⟩ := ok_bind.1 h
  obtain rfl := ok_pure.1 h
  exact ⟨fits, simpleUnless_fits (s := post) parsed⟩

theorem clauseInit_fits {ts : List Token} {first : List Expr} {rest : List Token}
    {init : Parsed (Option Stmt) (rest.length + 1)}
    (h : loopHeader.clauseInit stop ts first rest = .ok init) : Fits init.value := by
  unfold loopHeader.clauseInit at h
  split at h
  · obtain rfl := Except.ok.inj h
    exact fits_none
  · obtain ⟨s, parsed, h⟩ := ok_bind.1 h
    obtain rfl := ok_pure.1 h
    exact fits_some (simpleAfter_isSimple parsed)

theorem loopHeader_legal {ts : List Token} {head : Parsed LoopHeader (ts.length + 1)}
    (h : loopHeader stop ts = .ok head) : head.value.Legal := by
  unfold loopHeader at h
  split at h
  · obtain rfl := Except.ok.inj h
    exact ⟨fits_none, fits_none⟩
  · split at h
    · obtain ⟨iterable, _, h⟩ := ok_bind.1 h
      obtain rfl := ok_pure.1 h
      trivial
    · obtain ⟨⟨first, rest, h₁⟩, _, h⟩ := ok_bind.1 h
      dsimp only at h
      split at h
      · obtain ⟨iterable, _, h⟩ := ok_bind.1 h
        obtain rfl := ok_pure.1 h
        trivial
      · obtain ⟨⟨init, rest, h₂⟩, parsed, h⟩ := ok_bind.1 h
        have fits := clauseInit_fits parsed
        dsimp only at h
        split at h
        · obtain ⟨clauses, parsed, h⟩ := ok_bind.1 h
          obtain rfl := ok_pure.1 h
          have legal : clauses.value.Legal := loopClauses_legal fits parsed
          exact legal
        · split at h
          · obtain rfl := ok_pure.1 h
            exact ⟨fits_none, fits_none⟩
          · cases h

-- Statements that are parsed have simple statements in their headers.
abbrev Legal (s : Stmt) : Prop :=
  (Stmt.layout () s).Legal

theorem legal_header {isPost : Bool} {held : Option Stmt} (h : Fits held) :
    Layout.Legal { slots := [⟨isPost, (), held⟩] } :=
  List.forall_mem_singleton.2 h

theorem legal_of_isSimple {s : Stmt} (h : s.isSimple = true) : Legal s := by
  rw [Legal, Stmt.layout_of_isSimple () h]
  exact Layout.legal_listed _

theorem varDecl_legal {composites : Bool} {span : Span} {ts : List Token} {s : Parsed Stmt ts.length}
    (h : varDecl stop composites span ts = .ok s) : Legal s.value := by
  obtain ⟨⟨names, rest, h₁⟩, _, h⟩ := ok_bind.1 h
  obtain ⟨⟨type, rest, h₂⟩, _, h⟩ := ok_bind.1 h
  dsimp only at h
  split at h
  · obtain ⟨values, _, h⟩ := ok_bind.1 h
    obtain rfl := ok_pure.1 h
    exact Layout.legal_listed _
  · obtain rfl := ok_pure.1 h
    exact Layout.legal_listed _

theorem LoopHeader.legal_loop {head : LoopHeader} (h : head.Legal) {span : Span} {body : Block}
    (inner : (Stmt.blockLayout () body).Legal) : Parser.Legal (head.loop span body) := by
  cases head with
  | range key value define iterable =>
    exact (Layout.legal_append ..).2 ⟨Layout.legal_listed _, inner⟩
  | clauses init cond post =>
    have own : Layout.Legal { slots := [⟨false, (), init⟩, ⟨true, (), post⟩] } :=
      List.forall_mem_cons.2 ⟨h.1, List.forall_mem_singleton.2 h.2⟩
    exact (Layout.legal_append ..).2 ⟨own, inner⟩

theorem ifElse_form {span : Span} {ts : List Token} {s : Parsed Stmt ts.length}
    (h : ifElse stop span ts = .ok s) :
    ∃ init cond body orElse, s.value = .ifElse span init cond body orElse := by
  rw [ifElse] at h
  obtain ⟨⟨⟨init, cond⟩, rest, h₁⟩, ofHead, h⟩ := ok_bind.1 h
  cases cond with
  | none => cases h
  | some cond =>
    obtain ⟨⟨body, rest, h₂⟩, ofBody, h⟩ := ok_bind.1 h
    obtain ⟨orElse, parsed, h⟩ := ok_bind.1 h
    obtain rfl := ok_pure.1 h
    exact ⟨init, cond, body, orElse.value, rfl⟩

mutual

theorem block_legal {ts : List Token} {b : Parsed Block ts.length} (h : block stop ts = .ok b) :
    (Stmt.blockLayout () b.value).Legal := by
  rw [block] at h
  obtain ⟨⟨_, rest, h₁⟩, _, h⟩ := ok_bind.1 h
  obtain ⟨⟨body, rest, h₂⟩, parsed, h⟩ := ok_bind.1 h
  obtain ⟨⟨_, rest, h₃⟩, _, h⟩ := ok_bind.1 h
  obtain rfl := ok_pure.1 h
  exact statements_legal parsed
termination_by 8 * ts.length
decreasing_by all_goals grind

theorem statements_legal {ts : List Token} {ss : Parsed (List Stmt) (ts.length + 1)}
    (h : statements stop ts = .ok ss) : (Stmt.listLayout () ss.value).Legal := by
  rw [statements] at h
  generalize skipSemicolons ts = skipped at h
  obtain ⟨start, h₀⟩ := skipped
  dsimp only at h
  split at h
  · obtain rfl := Except.ok.inj h
    exact List.forall_mem_nil _
  split at h
  · cases h
  obtain ⟨⟨first, rest, h₁⟩, parsed, h⟩ := ok_bind.1 h
  have legal : Legal first := statement_legal parsed
  dsimp only at h
  split at h
  · obtain ⟨more, parsed, h⟩ := ok_bind.1 h
    obtain rfl := ok_pure.1 h
    exact (Layout.legal_append ..).2 ⟨legal, statements_legal parsed⟩
  · split at h
    · obtain rfl := ok_pure.1 h
      exact (Layout.legal_append ..).2 ⟨legal, List.forall_mem_nil _⟩
    · cases h
termination_by 8 * ts.length + 2
decreasing_by all_goals grind

theorem statement_legal {composites : Bool} {ts : List Token} {s : Parsed Stmt ts.length}
    (h : statement stop composites ts = .ok s) : Legal s.value := by
  rw [statement.eq_def] at h
  split at h
  · obtain ⟨declared, parsed, h⟩ := ok_bind.1 h
    obtain rfl := ok_pure.1 h
    exact varDecl_legal (s := declared) parsed
  · obtain ⟨branch, parsed, h⟩ := ok_bind.1 h
    obtain rfl := ok_pure.1 h
    exact ifElse_legal (s := branch) parsed
  · obtain ⟨⟨head, rest, h₁⟩, ofHead, h⟩ := ok_bind.1 h
    obtain ⟨body, parsed, h⟩ := ok_bind.1 h
    obtain rfl := ok_pure.1 h
    exact LoopHeader.legal_loop (loopHeader_legal ofHead) (block_legal (b := body) parsed)
  · obtain ⟨⟨⟨init, tag⟩, rest, h₁⟩, ofHead, h⟩ := ok_bind.1 h
    obtain ⟨⟨_, rest, h₂⟩, _, h⟩ := ok_bind.1 h
    obtain ⟨cs, parsed, h⟩ := ok_bind.1 h
    obtain rfl := ok_pure.1 h
    have own : Layout.Legal { slots := [⟨false, (), init⟩] } := legal_header (header_fits ofHead)
    exact (Layout.legal_append ..).2 ⟨own, cases_legal (c := cs) parsed⟩
  · obtain ⟨values, _, h⟩ := ok_bind.1 h
    obtain rfl := ok_pure.1 h
    exact Layout.legal_listed _
  · obtain rfl := Except.ok.inj h
    exact Layout.legal_listed _
  · obtain rfl := Except.ok.inj h
    exact Layout.legal_listed _
  · split at h
    · obtain ⟨body, parsed, h⟩ := ok_bind.1 h
      obtain rfl := ok_pure.1 h
      exact block_legal (b := body) parsed
    · exact legal_of_isSimple (simple_isSimple h)
termination_by 8 * ts.length + 1
decreasing_by all_goals grind

theorem ifElse_legal {span : Span} {ts : List Token} {s : Parsed Stmt ts.length}
    (h : ifElse stop span ts = .ok s) : Legal s.value := by
  rw [ifElse] at h
  obtain ⟨⟨⟨init, cond⟩, rest, h₁⟩, ofHead, h⟩ := ok_bind.1 h
  cases cond with
  | none => cases h
  | some cond =>
    obtain ⟨⟨body, rest, h₂⟩, ofBody, h⟩ := ok_bind.1 h
    obtain ⟨orElse, parsed, h⟩ := ok_bind.1 h
    obtain rfl := ok_pure.1 h
    have own : Layout.Legal { slots := [⟨false, (), init⟩] } := legal_header (header_fits ofHead)
    have legal := (Layout.legal_append ..).2 ⟨own, block_legal ofBody⟩
    exact (Layout.legal_append ..).2 ⟨legal, elseBranch_legal (s := orElse) parsed⟩
termination_by 8 * ts.length + 1
decreasing_by all_goals grind

theorem elseBranch_legal {ts : List Token} {s : Parsed (Option Stmt) (ts.length + 1)}
    (h : elseBranch stop ts = .ok s) : (Stmt.branchLayout () s.value).Legal := by
  rw [elseBranch] at h
  split at h
  · obtain rfl := Except.ok.inj h
    exact List.forall_mem_nil _
  split at h
  · obtain ⟨branch, parsed, h⟩ := ok_bind.1 h
    obtain rfl := ok_pure.1 h
    have legal : Legal branch.value := ifElse_legal parsed
    obtain ⟨_, _, _, _, same⟩ := ifElse_form parsed
    change (Stmt.branchLayout () (some branch.value)).Legal
    rw [same] at legal ⊢
    exact legal
  · obtain ⟨body, parsed, h⟩ := ok_bind.1 h
    obtain rfl := ok_pure.1 h
    exact block_legal (b := body) parsed
termination_by 8 * ts.length
decreasing_by all_goals grind

theorem cases_legal {composites : Bool} {ts : List Token} {c : Parsed (List Case) ts.length}
    (h : cases stop composites ts = .ok c) : (Stmt.casesLayout () c.value).Legal := by
  rw [cases] at h
  generalize skipSemicolons ts = skipped at h
  obtain ⟨start, h₀⟩ := skipped
  dsimp only at h
  split at h
  · obtain rfl := Except.ok.inj h
    exact List.forall_mem_nil _
  obtain ⟨⟨values, rest, h₁⟩, _, h⟩ := ok_bind.1 h
  obtain ⟨⟨body, rest, h₂⟩, ofBody, h⟩ := ok_bind.1 h
  obtain ⟨more, parsed, h⟩ := ok_bind.1 h
  obtain rfl := ok_pure.1 h
  exact (Layout.legal_append ..).2 ⟨statements_legal ofBody, cases_legal (c := more) parsed⟩
termination_by 8 * ts.length
decreasing_by all_goals grind

end

theorem function_legal {ts : List Token} {f : Parsed FuncDecl ts.length}
    (h : function stop ts = .ok f) : (Stmt.blockLayout () f.value.body).Legal := by
  rw [function] at h
  obtain ⟨⟨_, rest, h₁⟩, _, h⟩ := ok_bind.1 h
  obtain ⟨⟨receiver, rest, h₂⟩, _, h⟩ := ok_bind.1 h
  obtain ⟨⟨name, rest, h₃⟩, _, h⟩ := ok_bind.1 h
  obtain ⟨⟨typeParams, rest, h₄⟩, _, h⟩ := ok_bind.1 h
  obtain ⟨⟨_, rest, h₅⟩, _, h⟩ := ok_bind.1 h
  obtain ⟨⟨params, rest, h₆⟩, _, h⟩ := ok_bind.1 h
  obtain ⟨⟨results, rest, h₇⟩, _, h⟩ := ok_bind.1 h
  obtain ⟨⟨body, rest, h₈⟩, parsed, h⟩ := ok_bind.1 h
  obtain rfl := ok_pure.1 h
  exact block_legal parsed

theorem functions_legal {ts : List Token} {fs : List FuncDecl} (h : functions stop ts = .ok fs) :
    ∀ f ∈ fs, (Stmt.blockLayout () f.body).Legal := by
  rw [functions] at h
  generalize skipSemicolons ts = skipped at h
  obtain ⟨start, h₀⟩ := skipped
  dsimp only at h
  split at h
  · obtain rfl := Except.ok.inj h
    exact List.forall_mem_nil _
  obtain ⟨⟨first, rest, h₁⟩, parsed, h⟩ := ok_bind.1 h
  obtain ⟨more, others, h⟩ := ok_bind.1 h
  obtain rfl := ok_pure.1 h
  exact List.forall_mem_cons.2 ⟨function_legal parsed, functions_legal others⟩
termination_by ts.length
decreasing_by grind

end Parser

theorem FuncDecl.legal_of_parseAll {source : String} {fs : List FuncDecl}
    (h : parseAll source = .ok fs) : ∀ f ∈ fs, (Stmt.blockLayout () f.body).Legal := by
  obtain ⟨ts, _, h⟩ := ok_bind.1 h
  exact Parser.functions_legal h

end FieldAccess
