import FieldAccess.Proofs.CursorSteps
import FieldAccess.Proofs.PrintedExpressions

namespace FieldAccess.Reading

variable {stop : Span} {composites : Bool} {ts : List Token}

theorem eat_eq_none {mark : Symbol} (h : ∀ span rest, ts = ⟨.symbol mark, span⟩ :: rest → False) :
    Parser.eat mark ts = none := by
  refine dif_neg fun found => ?_
  cases ts with
  | nil => cases found
  | cons t rest =>
    obtain ⟨kind, span⟩ := t
    cases kind
    case symbol other =>
      obtain rfl : other = mark := of_decide_eq_true found
      exact h span rest rfl
    all_goals cases found

theorem eatWord_eq_none {word : Keyword}
    (h : ∀ span rest, ts = ⟨.keyword word, span⟩ :: rest → False) :
    Parser.eatWord word ts = none := by
  refine dif_neg fun found => ?_
  cases ts with
  | nil => cases found
  | cons t rest =>
    obtain ⟨kind, span⟩ := t
    cases kind
    case keyword other =>
      obtain rfl : other = word := of_decide_eq_true found
      exact h span rest rfl
    all_goals cases found

theorem eatWord_cons {word : Keyword} {span : Span} {rest : List Token} :
    Parser.eatWord word (⟨.keyword word, span⟩ :: rest) = some ⟨rest, Nat.lt_succ_self _⟩ :=
  dif_pos (decide_eq_true rfl)

theorem follows_typeName : Follows stop composites ts typeName (Parser.typeName stop ts) := by
  unfold Parser.typeName
  split
  case h_1 name span span' member span'' rest =>
    exact goes_identifier.bind (goes_peek.bind ((goes_peekAt 1).bind (goes_advance.bind
      (goes_identifier.bind (follows_pure rfl rfl)))))
  case h_2 name span rest noPoint =>
    refine goes_identifier.bind (goes_peek.bind ((goes_peekAt 1).bind ?_))
    split
    case h_1 dot member first second =>
      obtain _ | ⟨⟨_, span'⟩, _ | ⟨⟨_, span''⟩, rest⟩⟩ := rest
      · cases first
      · cases second
      · cases first
        cases second
        exact (noPoint span' member span'' rest rfl).elim
    case h_2 => exact follows_pure rfl rfl
  case h_3 _ noName =>
    have refused : Parser.identifier stop ts = .error (Parser.unexpected stop .identifier ts) := by
      unfold Parser.identifier
      split
      case h_1 name span rest => exact (noName _ _ _ rfl).elim
      case h_2 => rfl
    have failed : Follows stop composites ts identifier (Parser.identifier stop ts) :=
      follows_identifier
    rw [refused] at failed
    exact failed.refuse

theorem follows_typeExpr (ts : List Token) :
    Follows stop composites ts typeExpr (Parser.typeExpr stop ts) := by
  rw [typeExpr, read, Parser.typeExpr.eq_def]
  split
  case h_1 span rest =>
    refine (goes_eat Parser.eat_cons).ifTrue ?_
    exact (follows_typeExpr rest).bind fun p => follows_pure rfl rfl
  case h_2 span rest =>
    refine (goes_not_eat rfl).ifFalse ((goes_eat Parser.eat_cons).ifTrue ?_)
    exact (follows_typeExpr rest).bind fun p => follows_pure rfl rfl
  case h_3 span rest =>
    refine (goes_not_eat rfl).ifFalse ((goes_not_eat rfl).ifFalse ((goes_eat Parser.eat_cons).ifTrue ?_))
    refine (follows_symbol _).bind ?_
    rintro ⟨_, rest, shorter⟩
    exact (follows_typeExpr rest).bind fun p => follows_pure rfl rfl
  case h_4 span rest =>
    refine (goes_not_eat rfl).ifFalse ((goes_not_eat rfl).ifFalse ((goes_not_eat rfl).ifFalse
      ((goes_eatWord eatWord_cons).ifTrue ?_)))
    refine (follows_symbol _).bind ?_
    rintro ⟨_, rest, shorter₁⟩
    refine (follows_typeExpr rest).bind ?_
    rintro ⟨key, rest, shorter₂⟩
    refine (follows_symbol _).bind ?_
    rintro ⟨_, rest, shorter₃⟩
    exact (follows_typeExpr rest).bind fun p => follows_pure rfl rfl
  case h_5 star tilde lbracket mapWord =>
    refine (goes_not_eat (eat_eq_none star)).ifFalse ((goes_not_eat (eat_eq_none tilde)).ifFalse
      ((goes_not_eat (eat_eq_none lbracket)).ifFalse
        ((goes_not_eatWord (eatWord_eq_none mapWord)).ifFalse follows_typeName)))
termination_by ts.length
decreasing_by
  all_goals
    subst_vars
    simp only [List.length_cons] at *
    omega

theorem exists_of_peek {kind : TokenKind} (h : Parser.peek ts = kind) (other : kind ≠ .eof) :
    ∃ span rest, ts = ⟨kind, span⟩ :: rest := by
  cases ts with
  | nil => exact absurd h.symm other
  | cons t rest => exact ⟨t.span, rest, h ▸ rfl⟩

theorem atSymbol_of_eat {mark : Symbol} {next : { rest : List Token // rest.length < ts.length }}
    (h : Parser.eat mark ts = some next) : Parser.atSymbol mark ts = true := by
  unfold Parser.eat at h
  split at h
  case isTrue found => exact found
  case isFalse => cases h

theorem not_atSymbol_of_eat {mark : Symbol} (h : Parser.eat mark ts = none) :
    Parser.atSymbol mark ts = false := by
  unfold Parser.eat at h
  split at h
  case isTrue => cases h
  case isFalse other => exact Bool.eq_false_iff.2 other

theorem goes_of_atSymbol {mark : Symbol} {b : Bool} (h : Parser.atSymbol mark ts = b) :
    Goes stop composites ts (atSymbol mark) b ts :=
  h ▸ goes_atSymbol mark

-- No further argument follows.
theorem goes_arguments_end {next : { rest : List Token // rest.length < ts.length }}
    (h : Parser.eat .rparen ts = some next) : Goes stop composites ts (read .arguments) [] next.1 := by
  rw [read]
  refine (goes_eat h).then ?_
  rw [if_pos rfl]
  exact goes_pure

mutual

theorem follows_expr (composites : Bool) (ts : List Token) :
    Follows stop composites ts expr (Parser.expr stop composites ts) := by
  rw [expr, read, Parser.expr]
  exact follows_binary composites 1 ts
termination_by 8 * ts.length + 4
decreasing_by all_goals omega

theorem follows_binary (composites : Bool) (least : Nat) (ts : List Token) :
    Follows stop composites ts (read (.binary least)) (Parser.binary stop composites least ts) := by
  rw [read, Parser.binary]
  refine (follows_unary composites ts).bind ?_
  rintro ⟨left, rest, shorter⟩
  exact (follows_operators composites least left rest).moved fun _ => ⟨rfl, rfl⟩
termination_by 8 * ts.length + 3
decreasing_by all_goals omega

theorem follows_operators (composites : Bool) (least : Nat) (left : Expr) (ts : List Token) :
    Follows stop composites ts (read (.operators least left))
      (Parser.operators stop composites least left ts) := by
  rw [read, Parser.operators.eq_def]
  split
  case h_1 mark span rest =>
    refine goes_peek.bind ?_
    dsimp only [Parser.peek]
    cases mark.binary? with
    | none => exact follows_pure rfl rfl
    | some op =>
      dsimp only
      split
      case isTrue strong =>
        refine goes_here.bind (goes_advance.bind ?_)
        refine (follows_binary composites _ rest).bind ?_
        rintro ⟨right, rest, shorter⟩
        exact (follows_operators composites least _ rest).moved fun _ => ⟨rfl, rfl⟩
      case isFalse weak => exact follows_pure rfl rfl
  case h_2 other =>
    refine goes_peek.bind ?_
    split
    case h_1 mark found =>
      obtain ⟨span, rest, rfl⟩ := exists_of_peek found nofun
      exact (other mark span rest rfl).elim
    case h_2 => exact follows_pure rfl rfl
termination_by 8 * ts.length
decreasing_by
  all_goals
    subst_vars
    simp only [List.length_cons] at *
    omega

theorem follows_unary (composites : Bool) (ts : List Token) :
    Follows stop composites ts (read .unary) (Parser.unary stop composites ts) := by
  rw [read, Parser.unary.eq_def]
  split
  case h_1 mark span rest =>
    refine goes_peek.bind ?_
    dsimp only [Parser.peek]
    cases mark.unary? with
    | none => exact follows_suffixed composites _
    | some op =>
      refine goes_here.bind (goes_advance.bind ?_)
      exact (follows_unary composites rest).bind fun _ => follows_pure rfl rfl
  case h_2 other =>
    refine goes_peek.bind ?_
    split
    case h_1 mark found =>
      obtain ⟨span, rest, rfl⟩ := exists_of_peek found nofun
      exact (other mark span rest rfl).elim
    case h_2 => exact follows_suffixed composites _
termination_by 8 * ts.length + 2
decreasing_by
  all_goals
    subst_vars
    simp only [List.length_cons] at *
    omega

theorem follows_suffixed (composites : Bool) (ts : List Token) :
    Follows stop composites ts (OpenExpr.suffixed read) (Parser.suffixed stop composites ts) := by
  rw [OpenExpr.suffixed, Parser.suffixed]
  refine (follows_operand composites ts).bind ?_
  rintro ⟨base, rest, shorter⟩
  exact (follows_suffixes composites base rest).moved fun _ => ⟨rfl, rfl⟩
termination_by 8 * ts.length + 1
decreasing_by all_goals omega

theorem follows_suffixes (composites : Bool) (base : Expr) (ts : List Token) :
    Follows stop composites ts (read (.suffixes base)) (Parser.suffixes stop base ts) := by
  rw [read, Parser.suffixes.eq_def]
  refine goes_here.bind ?_
  split
  case h_1 span rest =>
    refine (goes_eat Parser.eat_cons).ifTrue ?_
    refine follows_identifier.bind ?_
    rintro ⟨member, rest, shorter⟩
    exact (follows_suffixes composites _ rest).moved fun _ => ⟨rfl, rfl⟩
  case h_2 span rest =>
    refine (goes_not_eat rfl).ifFalse ((goes_eat Parser.eat_cons).ifTrue ?_)
    refine (follows_arguments rest).within.bind ?_
    rintro ⟨args, rest, shorter⟩
    exact (follows_suffixes composites _ rest).moved fun _ => ⟨rfl, rfl⟩
  case h_3 span rest =>
    refine (goes_not_eat rfl).ifFalse ((goes_not_eat rfl).ifFalse ((goes_eat Parser.eat_cons).ifTrue ?_))
    refine (follows_expr true rest).within.bind ?_
    rintro ⟨index, rest, shorter₁⟩
    refine (follows_symbol _).bind ?_
    rintro ⟨_, rest, shorter₂⟩
    exact (follows_suffixes composites _ rest).moved fun _ => ⟨rfl, rfl⟩
  case h_4 dot lparen lbracket =>
    exact (goes_not_eat (eat_eq_none dot)).ifFalse ((goes_not_eat (eat_eq_none lparen)).ifFalse
      ((goes_not_eat (eat_eq_none lbracket)).ifFalse (follows_pure rfl rfl)))
termination_by 8 * ts.length
decreasing_by
  all_goals
    subst_vars
    simp only [List.length_cons] at *
    omega

theorem follows_arguments (ts : List Token) :
    Follows stop true ts (read .arguments) (Parser.arguments stop ts) := by
  rw [read, Parser.arguments]
  split
  case h_1 rest shorter found => exact (goes_eat found).ifTrue (follows_pure rfl rfl)
  case h_2 other =>
    refine (goes_not_eat other).ifFalse ?_
    refine (follows_expr true ts).bind ?_
    rintro ⟨arg, rest, shorter₁⟩
    dsimp only
    split
    case h_1 rest' shorter₂ found =>
      refine (goes_of_atSymbol (atSymbol_of_eat found)).ifTrue ?_
      exact (goes_arguments_end found).bind (follows_pure rfl rfl)
    case h_2 other =>
      refine (goes_of_atSymbol (not_atSymbol_of_eat other)).ifFalse ?_
      refine (follows_symbol _).bind ?_
      rintro ⟨_, rest, shorter₂⟩
      exact (follows_arguments rest).bind fun _ => follows_pure rfl rfl
termination_by 8 * ts.length + 5
decreasing_by all_goals omega

theorem follows_operand (composites : Bool) (ts : List Token) :
    Follows stop composites ts (OpenExpr.operand read) (Parser.operand stop composites ts) := by
  rw [OpenExpr.operand, Parser.operand.eq_def]
  refine goes_here.bind ?_
  split
  case h_1 value span rest => exact goes_peek.bind (goes_advance.bind (follows_pure rfl rfl))
  case h_2 value span rest => exact goes_peek.bind (goes_advance.bind (follows_pure rfl rfl))
  case h_3 text span rest => exact goes_peek.bind (goes_advance.bind (follows_pure rfl rfl))
  case h_4 text span rest =>
    refine goes_peek.bind (goes_advance.bind (goes_forbidsComposites.bind
      ((goes_atSymbol _).bind ?_)))
    rw [Bool.not_not]
    split
    case isTrue =>
      exact (follows_composite composites span (.named text) rest).moved fun _ => ⟨rfl, rfl⟩
    case isFalse => exact follows_pure rfl rfl
  case h_5 span rest =>
    refine goes_peek.bind (goes_advance.bind ?_)
    refine (follows_expr true rest).within.bind ?_
    rintro ⟨inner, rest, shorter⟩
    exact (follows_symbol _).bind fun _ => follows_pure rfl rfl
  case h_6 noInt noFloat noString noIdent noParen =>
    refine goes_peek.bind ?_
    split
    case h_1 found =>
      obtain ⟨span, rest, rfl⟩ := exists_of_peek found nofun
      exact (noInt _ span rest rfl).elim
    case h_2 found =>
      obtain ⟨span, rest, rfl⟩ := exists_of_peek found nofun
      exact (noFloat _ span rest rfl).elim
    case h_3 found =>
      obtain ⟨span, rest, rfl⟩ := exists_of_peek found nofun
      exact (noString _ span rest rfl).elim
    case h_4 found =>
      obtain ⟨span, rest, rfl⟩ := exists_of_peek found nofun
      exact (noIdent _ span rest rfl).elim
    case h_5 found =>
      obtain ⟨span, rest, rfl⟩ := exists_of_peek found nofun
      exact (noParen span rest rfl).elim
    case h_6 =>
      refine (goes_atSymbol _).bind ((goes_atKeyword _).bind ?_)
      split
      case isTrue =>
        refine (follows_typeExpr ts).bind ?_
        rintro ⟨type, rest, shorter⟩
        refine (goes_atSymbol _).bind ?_
        dsimp only
        split
        case isTrue =>
          exact (follows_composite composites _ type rest).moved fun _ => ⟨rfl, rfl⟩
        case isFalse => exact follows_pure rfl rfl
      case isFalse => exact follows_unexpected _
termination_by 8 * ts.length
decreasing_by
  all_goals
    subst_vars
    simp only [List.length_cons] at *
    omega

theorem follows_composite (composites : Bool) (span : Span) (type : TypeExpr) (ts : List Token) :
    Follows stop composites ts (OpenExpr.composite read span type)
      (Parser.composite stop span type ts) := by
  rw [OpenExpr.composite, Parser.composite]
  refine (follows_symbol _).bind ?_
  rintro ⟨_, rest, shorter⟩
  exact (follows_elements rest).within.bind fun _ => follows_pure rfl rfl
termination_by 8 * ts.length
decreasing_by all_goals omega

theorem follows_elements (ts : List Token) :
    Follows stop true ts (read .elements) (Parser.elements stop ts) := by
  rw [read, Parser.elements]
  refine goes_skipSemicolons.bind ?_
  generalize Parser.skipSemicolons ts = skipped
  obtain ⟨start, shorter₀⟩ := skipped
  dsimp only
  split
  case h_1 rest shorter found => exact (goes_eat found).ifTrue (follows_pure rfl rfl)
  case h_2 other =>
    refine (goes_not_eat other).ifFalse ?_
    refine (follows_expr true start).bind ?_
    rintro ⟨first, rest, shorter₁⟩
    refine (follows_elementAfter first rest).bind ?_
    rintro ⟨element, rest, shorter₂⟩
    dsimp only
    split
    case h_1 rest shorter₃ found =>
      refine (goes_eat found).ifTrue ?_
      exact (follows_elements rest).bind fun _ => follows_pure rfl rfl
    case h_2 other =>
      refine (goes_not_eat other).ifFalse ?_
      refine goes_skipSemicolons.bind ?_
      generalize Parser.skipSemicolons rest = skipped
      obtain ⟨rest, shorter₃⟩ := skipped
      exact (follows_symbol _).bind fun _ => follows_pure rfl rfl
termination_by 8 * ts.length + 5
decreasing_by all_goals omega

theorem follows_elementAfter (first : Expr) (ts : List Token) :
    Follows stop true ts (OpenExpr.elementAfter read first) (Parser.elementAfter stop first ts) := by
  rw [OpenExpr.elementAfter, Parser.elementAfter]
  split
  case h_1 rest shorter found =>
    refine (goes_eat found).ifTrue ?_
    exact (follows_expr true rest).bind fun _ => follows_pure rfl rfl
  case h_2 other => exact (goes_not_eat other).ifFalse (follows_pure rfl rfl)
termination_by 8 * ts.length
decreasing_by all_goals omega

end

theorem follows_exprs (ts : List Token) :
    Follows stop composites ts exprs (Parser.exprs stop composites ts) := by
  rw [exprs, read, Parser.exprs]
  refine (follows_expr composites ts).bind ?_
  rintro ⟨first, rest, shorter⟩
  dsimp only
  split
  case h_1 rest shorter₂ found =>
    refine (goes_eat found).ifTrue ?_
    exact (follows_exprs rest).bind fun _ => follows_pure rfl rfl
  case h_2 other => exact (goes_not_eat other).ifFalse (follows_pure rfl rfl)
termination_by ts.length
decreasing_by omega

theorem follows_names (ts : List Token) :
    Follows stop composites ts (read .names) (Parser.names stop ts) := by
  rw [read, Parser.names]
  refine follows_identifier.bind ?_
  rintro ⟨first, rest, shorter⟩
  dsimp only
  split
  case h_1 rest shorter₂ found =>
    refine (goes_eat found).ifTrue ?_
    exact (follows_names rest).bind fun _ => follows_pure rfl rfl
  case h_2 other => exact (goes_not_eat other).ifFalse (follows_pure rfl rfl)
termination_by ts.length
decreasing_by omega

theorem follows_typeParams (ts : List Token) :
    Follows stop composites ts (read .typeParams) (Parser.typeParams stop ts) := by
  rw [read, Parser.typeParams]
  split
  case h_1 rest shorter found => exact (goes_eat found).ifTrue (follows_pure rfl rfl)
  case h_2 other =>
    refine (goes_not_eat other).ifFalse ?_
    refine follows_identifier.bind ?_
    rintro ⟨name, rest, shorter₁⟩
    refine (follows_typeExpr rest).bind ?_
    rintro ⟨bound, rest, shorter₂⟩
    refine goes_skipComma.bind ?_
    dsimp only
    generalize Parser.skipComma rest = skipped
    obtain ⟨rest, shorter₃⟩ := skipped
    exact (follows_typeParams rest).bind fun _ => follows_pure rfl rfl
termination_by ts.length
decreasing_by omega

theorem follows_paramType (ts : List Token) :
    Follows stop composites ts (OpenExpr.paramType read) (Parser.paramType stop ts) := by
  unfold OpenExpr.paramType Parser.paramType
  refine (goes_atSymbol _).bind ((goes_atSymbol _).bind ?_)
  split
  case isTrue => exact follows_pure rfl rfl
  case isFalse => exact (follows_typeExpr ts).bind fun _ => follows_pure rfl rfl

theorem follows_paramEntries (ts : List Token) :
    Follows stop composites ts (read .paramEntries) (Parser.paramEntries stop ts) := by
  rw [read, Parser.paramEntries]
  split
  case h_1 rest shorter found => exact (goes_eat found).ifTrue (follows_pure rfl rfl)
  case h_2 other =>
    refine (goes_not_eat other).ifFalse ?_
    refine follows_identifier.bind ?_
    rintro ⟨name, rest, shorter₁⟩
    refine (follows_paramType rest).bind ?_
    rintro ⟨type, rest, shorter₂⟩
    refine goes_skipComma.bind ?_
    dsimp only
    generalize Parser.skipComma rest = skipped
    obtain ⟨rest, shorter₃⟩ := skipped
    exact (follows_paramEntries rest).bind fun _ => follows_pure rfl rfl
termination_by ts.length
decreasing_by omega

theorem follows_resultTypes (ts : List Token) :
    Follows stop composites ts (read .resultTypes) (Parser.resultTypes stop ts) := by
  rw [read, Parser.resultTypes]
  split
  case h_1 rest shorter found => exact (goes_eat found).ifTrue (follows_pure rfl rfl)
  case h_2 other =>
    refine (goes_not_eat other).ifFalse ?_
    refine (follows_typeExpr ts).bind ?_
    rintro ⟨type, rest, shorter₁⟩
    refine goes_skipComma.bind ?_
    dsimp only
    generalize Parser.skipComma rest = skipped
    obtain ⟨rest, shorter₂⟩ := skipped
    exact (follows_resultTypes rest).bind fun _ => follows_pure rfl rfl
termination_by ts.length
decreasing_by omega

end FieldAccess.Reading
