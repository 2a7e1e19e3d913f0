import FieldAccess.Proofs.CursorExpressions

namespace FieldAccess.Reading

variable {stop : Span} {composites : Bool} {ts : List Token}

theorem follows_step {span : Span} {targets : List Expr} {increment : Bool} {t : Token}
    {rest : List Token} : Follows stop composites (t :: rest) (simpleAfter.step span targets increment)
      (Parser.simpleAfter.step span targets increment rest : Outcome Stmt ((t :: rest).length + 1)) := by
  unfold simpleAfter.step Parser.simpleAfter.step
  refine goes_advance.bind ?_
  rcases targets with _ | ⟨target, _ | _⟩
  · exact follows_throw
  · exact follows_pure rfl rfl
  · exact follows_throw

theorem follows_alone {span : Span} {targets : List Expr} :
    Follows stop composites ts (simpleAfter.alone span targets)
      (Parser.simpleAfter.alone span targets ts) := by
  unfold simpleAfter.alone Parser.simpleAfter.alone
  rcases targets with _ | ⟨value, _ | _⟩
  · exact follows_throw
  · exact follows_pure rfl rfl
  · exact follows_throw

theorem follows_simpleAfter (span : Span) (targets : List Expr) (ts : List Token) :
    Follows stop composites ts (simpleAfter span targets)
      (Parser.simpleAfter stop composites span targets ts) := by
  unfold simpleAfter Parser.simpleAfter
  split
  case h_1 => exact goes_peek.bind follows_step
  case h_2 => exact goes_peek.bind follows_step
  case h_3 mark span' rest noIncrement noDecrement =>
    refine goes_peek.bind ?_
    dsimp only [Parser.peek]
    split
    case h_1 found => exact (noIncrement (TokenKind.symbol.inj found)).elim
    case h_2 found => exact (noDecrement (TokenKind.symbol.inj found)).elim
    case h_3 found =>
      obtain rfl := TokenKind.symbol.inj found
      cases mark.assignment? with
      | none => exact follows_alone
      | some op =>
        refine goes_advance.bind ?_
        exact (follows_exprs rest).bind fun _ => follows_pure rfl rfl
    case h_4 other => exact (other mark rfl).elim
  case h_4 _ _ noSymbol =>
    refine goes_peek.bind ?_
    split
    case h_4 => exact follows_alone
    all_goals
      rename_i found
      obtain ⟨span, rest, rfl⟩ := exists_of_peek found (by simp)
      exact (noSymbol _ span rest rfl).elim

theorem follows_simple (ts : List Token) :
    Follows stop composites ts simple (Parser.simple stop composites ts) := by
  unfold simple Parser.simple
  refine goes_here.bind ?_
  refine (follows_exprs ts).bind ?_
  rintro ⟨targets, rest, shorter⟩
  exact (follows_simpleAfter _ targets rest).moved fun _ => ⟨rfl, rfl⟩

theorem follows_simpleUnless (mark : Symbol) (ts : List Token) :
    Follows stop false ts (simpleUnless mark) (Parser.simpleUnless stop mark ts) := by
  unfold simpleUnless Parser.simpleUnless
  refine (goes_atSymbol mark).bind ?_
  split
  case isTrue => exact follows_pure rfl rfl
  case isFalse => exact (follows_simple ts).bind fun _ => follows_pure rfl rfl

theorem follows_exprUnless (mark : Symbol) (ts : List Token) :
    Follows stop false ts (exprUnless mark) (Parser.exprUnless stop mark ts) := by
  unfold exprUnless Parser.exprUnless
  refine (goes_atSymbol mark).bind ?_
  split
  case isTrue => exact follows_pure rfl rfl
  case isFalse => exact (follows_expr false ts).bind fun _ => follows_pure rfl rfl

theorem follows_header (ts : List Token) :
    Follows stop false ts header (Parser.header stop ts) := by
  unfold header Parser.header
  refine (goes_atSymbol _).bind ?_
  split
  case isTrue => exact follows_pure rfl rfl
  case isFalse =>
    refine (follows_simpleUnless _ ts).bind ?_
    rintro ⟨first, rest, shorter⟩
    dsimp only
    cases found : Parser.eat .semicolon rest with
    | some next =>
      refine (goes_eat found).ifTrue ?_
      exact (follows_exprUnless _ next.1).bind fun _ => follows_pure rfl rfl
    | none =>
      refine (goes_not_eat found).ifFalse ?_
      cases first with
      | none => exact follows_unexpected _
      | some statement =>
        cases statement with
        | expr value => exact follows_pure rfl rfl
        | _ => exact follows_unexpected _

theorem follows_loopClauses (init : Option Stmt) (ts : List Token) :
    Follows stop false ts (loopClauses init) (Parser.loopClauses stop init ts) := by
  unfold loopClauses Parser.loopClauses
  refine (follows_exprUnless _ ts).bind ?_
  rintro ⟨cond, rest, shorter₁⟩
  refine (follows_symbol _).bind ?_
  rintro ⟨_, rest, shorter₂⟩
  exact (follows_simpleUnless _ rest).bind fun _ => follows_pure rfl rfl

theorem follows_loopFirst (ts : List Token) :
    Follows stop false ts loopFirst (Parser.loopFirst stop ts) := by
  unfold loopFirst Parser.loopFirst
  refine (goes_atSymbol _).bind ?_
  split
  case isTrue => exact follows_pure rfl rfl
  case isFalse => exact (follows_exprs ts).moved fun _ => ⟨rfl, rfl⟩

theorem follows_clauseInit (start : List Token) (first : List Expr) (ts : List Token) :
    Follows stop false ts (clauseInit (Parser.here stop start) first)
      (Parser.loopHeader.clauseInit stop start first ts) := by
  unfold clauseInit Parser.loopHeader.clauseInit
  split
  case isTrue => exact follows_pure rfl rfl
  case isFalse => exact (follows_simpleAfter _ first ts).bind fun _ => follows_pure rfl rfl

theorem goes_rangeClause {p : Parsed Bool ts.length} (h : Parser.rangeClause? ts = some p) :
    Goes stop composites ts rangeClause? (some p.value) p.rest := by
  unfold Parser.rangeClause? at h
  split at h
  case h_1 span span' rest =>
    obtain rfl := Option.some.inj h
    exact goes_peek.then ((goes_peekAt 1).then (goes_advance.then (goes_advance.then goes_pure)))
  case h_2 span span' rest =>
    obtain rfl := Option.some.inj h
    exact goes_peek.then ((goes_peekAt 1).then (goes_advance.then (goes_advance.then goes_pure)))
  case h_3 => cases h

theorem goes_no_rangeClause (h : Parser.rangeClause? ts = none) :
    Goes stop composites ts rangeClause? none ts := by
  refine goes_peek.then ((goes_peekAt 1).then ?_)
  split
  case h_1 first second =>
    obtain _ | ⟨⟨_, span⟩, _ | ⟨⟨_, span'⟩, rest⟩⟩ := ts <;> cases first <;> cases second
    cases h
  case h_2 first second =>
    obtain _ | ⟨⟨_, span⟩, _ | ⟨⟨_, span'⟩, rest⟩⟩ := ts <;> cases first <;> cases second
    cases h
  case h_3 => exact goes_pure

theorem follows_loopHeader (ts : List Token) :
    Follows stop false ts loopHeader (Parser.loopHeader stop ts) := by
  unfold loopHeader Parser.loopHeader
  refine (goes_atSymbol _).bind ?_
  split
  case isTrue => exact follows_pure rfl rfl
  case isFalse =>
    split
    case h_1 rest shorter found =>
      refine (goes_eatWord found).ifTrue ?_
      exact (follows_expr false rest).bind fun _ => follows_pure rfl rfl
    case h_2 other =>
      refine (goes_not_eatWord other).ifFalse (goes_here.bind ?_)
      refine (follows_loopFirst ts).bind ?_
      rintro ⟨first, rest, shorter₁⟩
      dsimp only
      split
      case h_1 define rest shorter₂ found =>
        refine (goes_rangeClause found).bind ?_
        exact (follows_expr false rest).bind fun _ => follows_pure rfl rfl
      case h_2 other =>
        refine (goes_no_rangeClause other).bind ?_
        refine (follows_clauseInit ts first rest).bind ?_
        rintro ⟨init, rest, shorter₂⟩
        dsimp only
        cases found : Parser.eat .semicolon rest with
        | some next =>
          refine (goes_eat found).ifTrue ?_
          exact (follows_loopClauses init next.1).moved fun _ => ⟨rfl, rfl⟩
        | none =>
          refine (goes_not_eat found).ifFalse ?_
          cases init with
          | none => exact follows_unexpected _
          | some statement =>
            cases statement with
            | expr cond => exact follows_pure rfl rfl
            | _ => exact follows_unexpected _

theorem follows_typeOption (ts : List Token) :
    Follows stop composites ts typeOption (Parser.varDecl.typeOption stop ts) := by
  unfold typeOption Parser.varDecl.typeOption
  refine (goes_atSymbol _).bind ((goes_atSymbol _).bind ?_)
  split
  case isTrue => exact follows_pure rfl rfl
  case isFalse => exact (follows_typeExpr ts).bind fun _ => follows_pure rfl rfl

theorem goes_keyword {word : Keyword} {span : Span} {rest : List Token} :
    Goes stop composites (⟨.keyword word, span⟩ :: rest) (keyword word) () rest := by
  refine (goes_eatWord eatWord_cons).then ?_
  rw [if_pos rfl]
  exact goes_pure

theorem follows_varDecl (span : Span) (ts : List Token) :
    Follows stop composites (⟨.keyword .varWord, span⟩ :: ts) varDecl
      (Parser.varDecl stop composites span ts) := by
  unfold varDecl Parser.varDecl
  refine goes_here.bind (goes_keyword.bind ?_)
  refine (follows_names ts).bind ?_
  rintro ⟨names, rest, shorter₁⟩
  refine (follows_typeOption rest).bind ?_
  rintro ⟨type, rest, shorter₂⟩
  dsimp only
  split
  case h_1 rest shorter₃ found =>
    refine (goes_eat found).ifTrue ?_
    exact (follows_exprs rest).bind fun _ => follows_pure rfl rfl
  case h_2 other => exact (goes_not_eat other).ifFalse (follows_pure rfl rfl)

theorem follows_results (ts : List Token) :
    Follows stop composites ts results (Parser.results stop composites ts) := by
  unfold results Parser.results
  refine (goes_atSymbol _).bind ((goes_atSymbol _).bind ?_)
  split
  case isTrue => exact follows_pure rfl rfl
  case isFalse => exact (follows_exprs ts).moved fun _ => ⟨rfl, rfl⟩

theorem follows_caseValues (ts : List Token) :
    Follows stop composites ts caseValues (Parser.caseValues stop composites ts) := by
  unfold caseValues Parser.caseValues
  split
  case h_1 rest shorter found =>
    refine (goes_eatWord found).ifTrue ?_
    exact (follows_symbol _).bind fun _ => follows_pure rfl rfl
  case h_2 other =>
    refine (goes_not_eatWord other).ifFalse ?_
    refine (follows_keyword _).bind ?_
    rintro ⟨_, rest, shorter₁⟩
    refine (follows_exprs rest).bind ?_
    rintro ⟨values, rest, shorter₂⟩
    exact (follows_symbol _).bind fun _ => follows_pure rfl rfl

theorem goes_endsList : Goes stop composites ts endsList (Parser.endsList ts) ts :=
  (goes_atSymbol _).then ((goes_atKeyword _).then ((goes_atKeyword _).then goes_pure))

theorem exists_of_atSymbol {mark : Symbol} (h : Parser.atSymbol mark ts = true) :
    ∃ span rest, ts = ⟨.symbol mark, span⟩ :: rest := by
  cases ts with
  | nil => cases h
  | cons t rest => exact ⟨t.span, rest, Parser.atSymbol_cons.1 h ▸ rfl⟩

theorem exists_of_eatWord {word : Keyword} {rest : List Token} {shorter : rest.length < ts.length}
    (h : Parser.eatWord word ts = some ⟨rest, shorter⟩) :
    ∃ span, ts = ⟨.keyword word, span⟩ :: rest := by
  by_contra none
  rw [eatWord_eq_none fun span rest is => ?_] at h
  · cases h
  · subst is
    rw [eatWord_cons] at h
    cases h
    exact none ⟨span, rfl⟩

theorem goes_not_atKeyword {word : Keyword} (h : Parser.eatWord word ts = none) :
    Goes stop composites ts (atKeyword word) false ts := by
  unfold Parser.eatWord at h
  split at h
  case isTrue => cases h
  case isFalse other => exact Bool.eq_false_iff.2 other ▸ goes_atKeyword word

-- No further statement stands before a closing brace.
theorem goes_statements_end (h : Parser.atSymbol .rbrace ts = true) :
    Goes stop composites ts (readStmts .statements) [] ts := by
  obtain ⟨span, rest, rfl⟩ := exists_of_atSymbol h
  rw [readStmts]
  refine goes_skipSemicolons.then (goes_endsList.then ?_)
  exact goes_pure

mutual

theorem follows_block (composites : Bool) (ts : List Token) :
    Follows stop composites ts block (Parser.block stop ts) := by
  rw [block, readStmts, Parser.block]
  refine goes_here.bind ?_
  refine (follows_symbol _).bind ?_
  rintro ⟨_, rest, shorter₁⟩
  refine (follows_statements rest).within.bind ?_
  rintro ⟨body, rest, shorter₂⟩
  exact (follows_symbol _).bind fun _ => follows_pure rfl rfl
termination_by 8 * ts.length
decreasing_by
  all_goals
    dsimp only at *
    omega

theorem follows_statements (ts : List Token) :
    Follows stop true ts (readStmts .statements) (Parser.statements stop ts) := by
  rw [readStmts, Parser.statements]
  refine goes_skipSemicolons.bind ?_
  generalize Parser.skipSemicolons ts = skipped
  obtain ⟨start, shorter₀⟩ := skipped
  refine goes_endsList.bind ?_
  dsimp only
  split
  case isTrue => exact follows_pure rfl rfl
  refine goes_atEnd.bind ?_
  split
  case isTrue => exact follows_unexpected _
  refine (follows_statement true start).bind ?_
  rintro ⟨first, rest, shorter₁⟩
  dsimp only
  split
  case h_1 rest' shorter₂ found =>
    have noBrace : Parser.atSymbol .rbrace rest = false := by
      obtain ⟨span, rest, rfl⟩ := exists_of_atSymbol (atSymbol_of_eat found)
      rfl
    refine (goes_of_atSymbol noBrace).ifFalse ((goes_eat found).ifTrue ?_)
    exact (follows_statements rest').bind fun _ => follows_pure rfl rfl
  case h_2 other =>
    split
    case isTrue found =>
      refine (goes_of_atSymbol found).ifTrue ?_
      exact (goes_statements_end found).bind (follows_pure rfl rfl)
    case isFalse noBrace =>
      refine (goes_of_atSymbol (Bool.eq_false_iff.2 noBrace)).ifFalse ?_
      exact (goes_not_eat other).ifFalse (follows_unexpected _)
termination_by 8 * ts.length + 2
decreasing_by
  all_goals
    dsimp only at *
    omega

theorem follows_statement (composites : Bool) (ts : List Token) :
    Follows stop composites ts statement (Parser.statement stop composites ts) := by
  rw [statement, readStmts, Parser.statement.eq_def]
  refine goes_here.bind ?_
  split
  case h_1 span rest =>
    exact goes_peek.bind ((follows_varDecl span rest).moved fun _ => ⟨rfl, rfl⟩)
  case h_2 span rest =>
    exact goes_peek.bind ((follows_ifElse composites span rest).moved fun _ => ⟨rfl, rfl⟩)
  case h_3 span rest =>
    refine goes_peek.bind (goes_advance.bind ?_)
    refine (follows_loopHeader rest).within.bind ?_
    rintro ⟨header, rest, shorter⟩
    exact (follows_block composites rest).bind fun _ => follows_pure rfl rfl
  case h_4 span rest =>
    refine goes_peek.bind (goes_advance.bind ?_)
    refine (follows_header rest).within.bind ?_
    rintro ⟨⟨init, tag⟩, rest, shorter₁⟩
    refine (follows_symbol _).bind ?_
    rintro ⟨_, rest, shorter₂⟩
    exact (follows_cases composites rest).bind fun _ => follows_pure rfl rfl
  case h_5 span rest =>
    refine goes_peek.bind (goes_advance.bind ?_)
    exact (follows_results rest).bind fun _ => follows_pure rfl rfl
  case h_6 span rest => exact goes_peek.bind (goes_advance.bind (follows_pure rfl rfl))
  case h_7 span rest => exact goes_peek.bind (goes_advance.bind (follows_pure rfl rfl))
  case h_8 noVar noIf noFor noSwitch noReturn noBreak noContinue =>
    split
    case isTrue found =>
      obtain ⟨span, rest, rfl⟩ := exists_of_atSymbol found
      exact goes_peek.bind ((follows_block composites _).bind fun _ => follows_pure rfl rfl)
    case isFalse noBrace =>
      refine goes_peek.bind ?_
      split
      case h_9 => exact follows_simple ts
      all_goals
        rename_i found
        obtain ⟨span, rest, rfl⟩ := exists_of_peek found nofun
        exfalso
      case h_1 => exact noVar span rest rfl
      case h_2 => exact noIf span rest rfl
      case h_3 => exact noFor span rest rfl
      case h_4 => exact noSwitch span rest rfl
      case h_5 => exact noReturn span rest rfl
      case h_6 => exact noBreak span rest rfl
      case h_7 => exact noContinue span rest rfl
      case h_8 => exact noBrace rfl
termination_by 8 * ts.length + 1
decreasing_by
  all_goals
    subst_vars
    simp only [List.length_cons] at *
    omega

theorem follows_ifElse (composites : Bool) (span : Span) (ts : List Token) :
    Follows stop composites (⟨.keyword .ifWord, span⟩ :: ts) (readStmts .ifElse)
      (Parser.ifElse stop span ts) := by
  rw [readStmts, Parser.ifElse]
  refine goes_here.bind (goes_keyword.bind ?_)
  refine (follows_header ts).within.bind ?_
  rintro ⟨⟨init, cond⟩, rest, shorter₁⟩
  cases cond with
  | none => exact follows_throw
  | some cond =>
    refine (follows_block composites rest).bind ?_
    rintro ⟨body, rest, shorter₂⟩
    exact (follows_elseBranch composites rest).bind fun _ => follows_pure rfl rfl
termination_by 8 * ts.length + 1
decreasing_by
  all_goals
    dsimp only at *
    omega

theorem follows_elseBranch (composites : Bool) (ts : List Token) :
    Follows stop composites ts (OpenStmt.elseBranch readStmts) (Parser.elseBranch stop ts) := by
  rw [OpenStmt.elseBranch, Parser.elseBranch]
  split
  case h_1 other => exact (goes_not_eatWord other).ifFalse (follows_pure rfl rfl)
  case h_2 rest shorter₁ found =>
    refine (goes_eatWord found).ifTrue ?_
    split
    case h_1 after shorter₂ found =>
      obtain ⟨span, cons⟩ := exists_of_eatWord found
      have here : Parser.here stop rest = span := by rw [cons, Parser.here]
      have next : Goes stop composites rest (atKeyword .ifWord) true rest := by
        rw [cons]
        exact goes_atKeyword .ifWord
      have branch : Follows stop composites (⟨.keyword .ifWord, span⟩ :: after)
          (readStmts .ifElse) (Parser.ifElse stop span after) := follows_ifElse composites span after
      rw [← cons] at branch
      rw [here]
      exact next.ifTrue (branch.bind fun _ => follows_pure rfl rfl)
    case h_2 other =>
      refine (goes_not_atKeyword other).ifFalse ?_
      exact (follows_block composites rest).bind fun _ => follows_pure rfl rfl
termination_by 8 * ts.length
decreasing_by
  all_goals
    subst_vars
    dsimp only at *
    omega

theorem follows_cases (composites : Bool) (ts : List Token) :
    Follows stop composites ts (readStmts .cases) (Parser.cases stop composites ts) := by
  rw [readStmts, Parser.cases]
  refine goes_skipSemicolons.bind ?_
  generalize Parser.skipSemicolons ts = skipped
  obtain ⟨start, shorter₀⟩ := skipped
  dsimp only
  split
  case h_1 rest shorter found => exact (goes_eat found).ifTrue (follows_pure rfl rfl)
  case h_2 other =>
    refine (goes_not_eat other).ifFalse (goes_here.bind ?_)
    refine (follows_caseValues start).bind ?_
    rintro ⟨values, rest, shorter₁⟩
    refine (follows_statements rest).within.bind ?_
    rintro ⟨body, rest, shorter₂⟩
    exact (follows_cases composites rest).bind fun _ => follows_pure rfl rfl
termination_by 8 * ts.length
decreasing_by
  all_goals
    dsimp only at *
    omega

end

theorem follows_receiver (ts : List Token) :
    Follows stop composites ts receiver (Parser.receiver stop ts) := by
  unfold receiver Parser.receiver
  split
  case h_1 other => exact (goes_not_eat other).ifFalse (follows_pure rfl rfl)
  case h_2 rest shorter found =>
    refine (goes_eat found).ifTrue ?_
    refine follows_identifier.bind ?_
    rintro ⟨name, rest, shorter₂⟩
    refine (follows_typeExpr rest).bind ?_
    rintro ⟨type, rest, shorter₃⟩
    exact (follows_symbol _).bind fun _ => follows_pure rfl rfl

theorem follows_typeParamsOption (ts : List Token) :
    Follows stop composites ts typeParamsOption (Parser.typeParamsOption stop ts) := by
  unfold typeParamsOption Parser.typeParamsOption
  split
  case h_1 other => exact (goes_not_eat other).ifFalse (follows_pure rfl rfl)
  case h_2 rest shorter found =>
    exact (goes_eat found).ifTrue ((follows_typeParams rest).moved fun _ => ⟨rfl, rfl⟩)

theorem follows_params (ts : List Token) :
    Follows stop composites ts params (Parser.params stop ts) := by
  unfold params Parser.params
  refine (follows_paramEntries ts).bind fun entries => ?_
  cases Parser.typedParams entries.value with
  | ok params => exact follows_pure rfl rfl
  | error fault => exact goes_here.bind follows_throw

theorem follows_resultsOption (ts : List Token) :
    Follows stop composites ts resultsOption (Parser.resultsOption stop ts) := by
  unfold resultsOption Parser.resultsOption
  refine (goes_atSymbol _).bind ?_
  split
  case isTrue => exact follows_pure rfl rfl
  case isFalse =>
    split
    case h_1 rest shorter found =>
      exact (goes_eat found).ifTrue ((follows_resultTypes rest).moved fun _ => ⟨rfl, rfl⟩)
    case h_2 other =>
      refine (goes_not_eat other).ifFalse ?_
      exact (follows_typeExpr ts).bind fun _ => follows_pure rfl rfl

theorem follows_function (ts : List Token) :
    Follows stop composites ts function (Parser.function stop ts) := by
  unfold function OpenStmt.function Parser.function
  refine goes_here.bind ?_
  refine (follows_keyword _).bind ?_
  rintro ⟨_, rest, shorter₁⟩
  refine (follows_receiver rest).bind ?_
  rintro ⟨receiver, rest, shorter₂⟩
  refine follows_identifier.bind ?_
  rintro ⟨name, rest, shorter₃⟩
  refine (follows_typeParamsOption rest).bind ?_
  rintro ⟨typeParams, rest, shorter₄⟩
  refine (follows_symbol _).bind ?_
  rintro ⟨_, rest, shorter₅⟩
  refine (follows_params rest).bind ?_
  rintro ⟨params, rest, shorter₆⟩
  refine (follows_resultsOption rest).bind ?_
  rintro ⟨results, rest, shorter₇⟩
  exact (follows_block composites rest).bind fun _ => follows_pure rfl rfl

-- The functions of a file are what is read of its tokens.
theorem file_eq (ts : List Token) {c : Cursor} (here : c.At stop composites ts) :
    ∃ c', c.Moves c' ∧ file c = some (Parser.functions stop ts, c') := by
  rw [file, readStmts, OpenStmt.file, Parser.functions]
  generalize skipped : Parser.skipSemicolons ts = start
  obtain ⟨start, shorter₀⟩ := start
  have skips : Goes stop composites ts skipSemicolons () start := by
    have skips := @goes_skipSemicolons stop composites ts
    rwa [skipped] at skips
  obtain ⟨c₁, moves₁, run₁, left₁⟩ := skips c here
  have here₁ := here.moves moves₁ left₁
  obtain ⟨c₂, moves₂, run₂, left₂⟩ := goes_atEnd c₁ here₁
  have here₂ := here₁.moves moves₂ left₂
  rw [bind_ok run₁, bind_ok run₂]
  dsimp only
  split
  case isTrue => exact ⟨c₂, moves₁.trans moves₂, rfl⟩
  case isFalse =>
    obtain ⟨c₃, moves₃, run₃, left₃⟩ := follows_function start c₂ here₂
    have moves := (moves₁.trans moves₂).trans moves₃
    cases parsed : Parser.function stop start with
    | error e =>
      rw [parsed] at run₃
      exact ⟨c₃, moves, bind_error run₃⟩
    | ok first =>
      have shorter := first.shorter
      rw [parsed] at run₃
      obtain ⟨c₄, moves₄, run₄⟩ := file_eq first.rest (here₂.moves moves₃ (left₃ first parsed))
      refine ⟨c₄, moves.trans moves₄, (bind_ok run₃).trans ?_⟩
      change _ = some (Parser.functions stop first.rest >>= fun more => pure (first.value :: more), c₄)
      cases others : Parser.functions stop first.rest with
      | error e =>
        rw [others] at run₄
        exact bind_error run₄
      | ok more =>
        rw [others] at run₄
        exact bind_ok run₄
termination_by ts.length
decreasing_by omega

-- From where the cursor stands, the procedure ends with the outcome. If that is a value, the cursor
-- has gone on, no further than to the end.
def Advances (c : Cursor) {α : Type} {n : Nat} (x : Reading α) (o : Outcome α n) : Prop :=
  ∃ c', x c = some (o.map Parsed.value, c') ∧ c'.tokens = c.tokens ∧ c'.noComposite = c.noComposite ∧
    ∀ p, o = .ok p → c'.left = p.rest ∧ c.pos < c'.pos ∧ c'.pos ≤ c.tokens.length

theorem Follows.advances {α : Type} {c : Cursor} {x : Reading α} {o : Outcome α c.left.length}
    (h : Follows (Parser.stopOf c.tokens) (!c.noComposite) c.left x o) : Advances c x o := by
  obtain ⟨c', moves, run, left⟩ := h c ⟨rfl, (Bool.not_not _).symm, rfl⟩
  refine ⟨c', run, moves.tokens, moves.noComposite, fun p is => ⟨left p is, ?_⟩⟩
  have shorter := p.shorter
  rw [← left p is, Cursor.left, Cursor.left, List.length_drop, List.length_drop, moves.tokens]
    at shorter
  have inside := moves.inside
  omega

-- The parser ends on all tokens, from wherever it starts and whether or not composite literals are
-- allowed there.
theorem parser_ends_and_advances :
    (∀ tokens, ∃ c, file ⟨tokens, 0, false⟩ = some (Parser.file tokens, c) ∧ c.noComposite = false) ∧
    ∀ c : Cursor,
      Advances c function (Parser.function (Parser.stopOf c.tokens) c.left) ∧
      Advances c block (Parser.block (Parser.stopOf c.tokens) c.left) ∧
      Advances c statement (Parser.statement (Parser.stopOf c.tokens) (!c.noComposite) c.left) ∧
      Advances c typeExpr (Parser.typeExpr (Parser.stopOf c.tokens) c.left) ∧
      Advances c expr (Parser.expr (Parser.stopOf c.tokens) (!c.noComposite) c.left) := by
  refine ⟨fun tokens => ?_, fun c => ?_⟩
  · obtain ⟨c, moves, run⟩ := @file_eq (Parser.stopOf tokens) true tokens ⟨tokens, 0, false⟩
      ⟨rfl, rfl, List.drop_zero⟩
    exact ⟨c, run, moves.noComposite⟩
  · exact ⟨(follows_function _).advances, (follows_block _ _).advances,
      (follows_statement _ _).advances, (follows_typeExpr _).advances, (follows_expr _ _).advances⟩

end FieldAccess.Reading
