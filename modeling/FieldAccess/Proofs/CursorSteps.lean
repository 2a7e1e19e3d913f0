import FieldAccess.Source.CursorParser
import FieldAccess.Proofs.Success

namespace FieldAccess

namespace Cursor

variable {c c' c'' : Cursor}

-- The tokens still to be read.
def left (c : Cursor) : List Token :=
  c.tokens.drop c.pos

-- The position is where it was or further on, but not past the end; all else is kept.
structure Moves (c c' : Cursor) : Prop where
  tokens : c'.tokens = c.tokens
  noComposite : c'.noComposite = c.noComposite
  forth : c.pos ≤ c'.pos
  inside : c'.pos ≤ max c.pos c.tokens.length

theorem Moves.refl : c.Moves c :=
  ⟨rfl, rfl, Nat.le_refl _, Nat.le_max_left ..⟩

theorem Moves.trans (h : c.Moves c') (h' : c'.Moves c'') : c.Moves c'' where
  tokens := h'.tokens.trans h.tokens
  noComposite := h'.noComposite.trans h.noComposite
  forth := Nat.le_trans h.forth h'.forth
  inside := by
    have := h.inside
    have := h'.inside
    rw [h.tokens] at this
    omega

-- The cursor stands before `ts`, in tokens that stop at `stop`, and allows composite literals or not.
structure At (c : Cursor) (stop : Span) (composites : Bool) (ts : List Token) : Prop where
  stop : Parser.stopOf c.tokens = stop
  noComposite : c.noComposite = !composites
  left : c.left = ts

variable {stop : Span} {composites : Bool} {ts rest : List Token}

theorem At.moves (h : c.At stop composites ts) (moves : c.Moves c') (left : c'.left = rest) :
    c'.At stop composites rest where
  stop := by rw [moves.tokens, h.stop]
  noComposite := by rw [moves.noComposite, h.noComposite]
  left := left

theorem At.getElem? (h : c.At stop composites ts) (offset : Nat) :
    c.tokens[c.pos + offset]? = ts[offset]? := by
  rw [← h.left, Cursor.left, List.getElem?_drop]

end Cursor

namespace Reading

open Cursor

variable {α β : Type} {stop : Span} {composites : Bool} {ts ts' rest : List Token} {n k : Nat}
  {x : Reading α} {f : α → Reading β} {v : α}

-- From before `ts` the procedure gets to before `rest` and returns the value.
def Goes (stop : Span) (composites : Bool) (ts : List Token) (x : Reading α) (v : α)
    (rest : List Token) : Prop :=
  ∀ c, c.At stop composites ts → ∃ c', c.Moves c' ∧ x c = some (.ok v, c') ∧ c'.left = rest

-- From before `ts` the procedure ends with the outcome.
def Follows (stop : Span) (composites : Bool) (ts : List Token) (x : Reading α) (o : Outcome α n) :
    Prop :=
  ∀ c, c.At stop composites ts → ∃ c', c.Moves c' ∧ x c = some (o.map Parsed.value, c') ∧
    ∀ p, o = .ok p → c'.left = p.rest

theorem bind_ok {c c' : Cursor} (h : x c = some (.ok v, c')) : (x >>= f) c = f v c' := by
  change Option.bind (x c) _ = _
  rw [h]
  rfl

theorem bind_error {c c' : Cursor} {e : SyntaxError} (h : x c = some (.error e, c')) :
    (x >>= f) c = some (.error e, c') := by
  change Option.bind (x c) _ = _
  rw [h]
  rfl

theorem Goes.bind {o : Outcome β n} (h : Goes stop composites ts x v rest)
    (h' : Follows stop composites rest (f v) o) : Follows stop composites ts (x >>= f) o := by
  intro c here
  obtain ⟨c', moves, run, left⟩ := h c here
  obtain ⟨c'', moves', run', left'⟩ := h' c' (here.moves moves left)
  exact ⟨c'', moves.trans moves', (bind_ok run).trans run', left'⟩

theorem Goes.then {w : β} (h : Goes stop composites ts x v ts')
    (h' : Goes stop composites ts' (f v) w rest) : Goes stop composites ts (x >>= f) w rest := by
  intro c here
  obtain ⟨c', moves, run, left⟩ := h c here
  obtain ⟨c'', moves', run', left'⟩ := h' c' (here.moves moves left)
  exact ⟨c'', moves.trans moves', (bind_ok run).trans run', left'⟩

theorem goes_pure : Goes stop composites ts (pure v) v ts :=
  fun c here => ⟨c, .refl, rfl, here.left⟩

theorem Follows.bind {o : Outcome α n} {g : Parsed α n → Outcome β k}
    (h : Follows stop composites ts x o)
    (h' : ∀ p, Follows stop composites p.rest (f p.value) (g p)) :
    Follows stop composites ts (x >>= f) (o >>= g) := by
  intro c here
  obtain ⟨c', moves, run, left⟩ := h c here
  cases o with
  | error e => exact ⟨c', moves, bind_error run, nofun⟩
  | ok p =>
    obtain ⟨c'', moves', run', left'⟩ := h' p c' (here.moves moves (left p rfl))
    exact ⟨c'', moves.trans moves', (bind_ok run).trans run', left'⟩

theorem Follows.refuse {e : SyntaxError} (h : Follows stop composites ts x (.error e : Outcome α n)) :
    Follows stop composites ts (x >>= f) (.error e : Outcome β k) := by
  intro c here
  obtain ⟨c', moves, run, -⟩ := h c here
  exact ⟨c', moves, bind_error run, nofun⟩

theorem Goes.follows {p : Parsed α n} (h : Goes stop composites ts x p.value p.rest) :
    Follows stop composites ts x (.ok p) := by
  intro c here
  obtain ⟨c', moves, run, left⟩ := h c here
  exact ⟨c', moves, run, fun p' same => Except.ok.inj same ▸ left⟩

theorem follows_pure {p : Parsed α n} (value : p.value = v) (left : p.rest = ts) :
    Follows stop composites ts (pure v) (pure p) := by
  subst value left
  exact goes_pure.follows

theorem follows_throw {e : SyntaxError} :
    Follows stop composites ts (throw e : Reading α) (.error e : Outcome α n) :=
  fun c _ => ⟨c, .refl, rfl, nofun⟩

-- Bounds are loosened, values and rests are kept.
theorem Follows.moved {o : Outcome α n} {g : Parsed α n → Parsed α k}
    (h : Follows stop composites ts x o)
    (same : ∀ p, (g p).value = p.value ∧ (g p).rest = p.rest) :
    Follows stop composites ts x (o >>= fun p => pure (g p)) := by
  have whole := h.bind fun p => @follows_pure _ stop composites _ _ _ (g p) (same p).1 (same p).2
  rwa [bind_pure] at whole

section Looking

theorem goes_peekAt (offset : Nat) : Goes stop composites ts (peekAt offset)
    ((ts[offset]?.map Token.kind).getD .eof) ts := by
  intro c here
  refine ⟨c, .refl, ?_, here.left⟩
  rw [← here.getElem?]
  rfl

theorem goes_peek : Goes stop composites ts peek (Parser.peek ts) ts := by
  have first : (ts[0]?.map Token.kind).getD .eof = Parser.peek ts := by cases ts <;> rfl
  exact first ▸ goes_peekAt 0

theorem goes_here : Goes stop composites ts Reading.here (Parser.here stop ts) ts := by
  intro c here
  refine ⟨c, .refl, ?_, here.left⟩
  have first : ((c.tokens[c.pos]? <|> c.tokens.getLast?).map Token.span).getD .nowhere =
      Parser.here stop ts := by
    rw [← Nat.add_zero c.pos, here.getElem?, ← here.stop]
    cases ts <;> rfl
  exact first ▸ rfl

theorem goes_forbidsComposites : Goes stop composites ts forbidsComposites (!composites) ts :=
  fun c here => ⟨c, .refl, here.noComposite ▸ rfl, here.left⟩

theorem goes_atSymbol (mark : Symbol) :
    Goes stop composites ts (atSymbol mark) (Parser.atSymbol mark ts) ts := by
  refine goes_peek.then ?_
  cases ts with
  | nil => exact goes_pure
  | cons t ts =>
    obtain ⟨kind, span⟩ := t
    cases kind <;> exact goes_pure

theorem goes_atKeyword (word : Keyword) :
    Goes stop composites ts (atKeyword word) (Parser.atKeyword word ts) ts := by
  refine goes_peek.then ?_
  cases ts with
  | nil => exact goes_pure
  | cons t ts =>
    obtain ⟨kind, span⟩ := t
    cases kind <;> exact goes_pure

theorem goes_atEnd : Goes stop composites ts atEnd (Parser.atEnd ts) ts := by
  refine goes_peek.then ?_
  cases ts with
  | nil => exact goes_pure
  | cons t ts =>
    obtain ⟨kind, span⟩ := t
    cases kind <;> exact goes_pure

end Looking

section Steps

theorem goes_advance {t : Token} : Goes stop composites (t :: ts) advance () ts := by
  intro c here
  have left : c.tokens.drop c.pos = t :: ts := here.left
  have inside : c.pos < c.tokens.length := by
    have some := congrArg List.length left
    rw [List.length_drop, List.length_cons] at some
    omega
  refine ⟨{ c with pos := c.pos + 1 }, ⟨rfl, rfl, Nat.le_succ _, ?_⟩, rfl, ?_⟩
  · exact Nat.le_trans inside (Nat.le_max_right ..)
  · change c.tokens.drop (c.pos + 1) = ts
    rw [← List.tail_drop, left, List.tail_cons]

theorem follows_unexpected (what : Expectation) : Follows stop composites ts
    (unexpected what : Reading α) (.error (Parser.unexpected stop what ts) : Outcome α n) :=
  goes_here.bind (goes_peek.bind follows_throw)

-- A condition that holds, or does not.
theorem Goes.ifTrue {x : Reading Bool} {a b : Reading β} {o : Outcome β n}
    (h : Goes stop composites ts x true rest) (h' : Follows stop composites rest a o) :
    Follows stop composites ts (x >>= fun v => if v = true then a else b) o :=
  h.bind (by rwa [if_pos rfl])

theorem Goes.ifFalse {x : Reading Bool} {a b : Reading β} {o : Outcome β n}
    (h : Goes stop composites ts x false rest) (h' : Follows stop composites rest b o) :
    Follows stop composites ts (x >>= fun v => if v = true then a else b) o :=
  h.bind (by rwa [if_neg Bool.false_ne_true])

theorem exists_cons_of_head {p : Token → Bool} (h : ts.head?.any p = true) :
    ∃ t, ts = t :: ts.tail := by
  cases ts with
  | nil => cases h
  | cons t ts => exact ⟨t, rfl⟩

theorem goes_eat {mark : Symbol} {next : { rest : List Token // rest.length < ts.length }}
    (h : Parser.eat mark ts = some next) : Goes stop composites ts (eat mark) true next.1 := by
  unfold Parser.eat at h
  split at h
  case isFalse => cases h
  case isTrue found =>
    obtain rfl := Option.some.inj h
    obtain ⟨t, cons⟩ := exists_cons_of_head found
    have look : Goes stop composites ts (atSymbol mark) true ts := found ▸ goes_atSymbol mark
    have step : Goes stop composites ts advance () ts.tail := by
      rw [cons]
      exact goes_advance
    refine look.then ?_
    rw [if_pos rfl]
    exact step.then goes_pure

theorem goes_not_eat {mark : Symbol} (h : Parser.eat mark ts = none) :
    Goes stop composites ts (eat mark) false ts := by
  unfold Parser.eat at h
  split at h
  case isTrue => cases h
  case isFalse other =>
    have look : Goes stop composites ts (atSymbol mark) false ts :=
      Bool.eq_false_iff.2 other ▸ goes_atSymbol mark
    refine look.then ?_
    rw [if_neg Bool.false_ne_true]
    exact goes_pure

theorem goes_eatWord {word : Keyword} {next : { rest : List Token // rest.length < ts.length }}
    (h : Parser.eatWord word ts = some next) :
    Goes stop composites ts (eatWord word) true next.1 := by
  unfold Parser.eatWord at h
  split at h
  case isFalse => cases h
  case isTrue found =>
    obtain rfl := Option.some.inj h
    obtain ⟨t, cons⟩ := exists_cons_of_head found
    have look : Goes stop composites ts (atKeyword word) true ts := found ▸ goes_atKeyword word
    have step : Goes stop composites ts advance () ts.tail := by
      rw [cons]
      exact goes_advance
    refine look.then ?_
    rw [if_pos rfl]
    exact step.then goes_pure

theorem goes_not_eatWord {word : Keyword} (h : Parser.eatWord word ts = none) :
    Goes stop composites ts (eatWord word) false ts := by
  unfold Parser.eatWord at h
  split at h
  case isTrue => cases h
  case isFalse other =>
    have look : Goes stop composites ts (atKeyword word) false ts :=
      Bool.eq_false_iff.2 other ▸ goes_atKeyword word
    refine look.then ?_
    rw [if_neg Bool.false_ne_true]
    exact goes_pure

theorem follows_symbol (mark : Symbol) :
    Follows stop composites ts (symbol mark) (Parser.symbol stop mark ts) := by
  unfold Parser.symbol
  split
  case isTrue found =>
    have some : Parser.eat mark ts = some ⟨ts.tail, _⟩ := dif_pos found
    exact (goes_eat some).ifTrue (follows_pure rfl rfl)
  case isFalse other => exact (goes_not_eat (dif_neg other)).ifFalse (follows_unexpected _)

theorem follows_keyword (word : Keyword) :
    Follows stop composites ts (keyword word) (Parser.keyword stop word ts) := by
  unfold Parser.keyword
  split
  case isTrue found =>
    have some : Parser.eatWord word ts = some ⟨ts.tail, _⟩ := dif_pos found
    exact (goes_eatWord some).ifTrue (follows_pure rfl rfl)
  case isFalse other => exact (goes_not_eatWord (dif_neg other)).ifFalse (follows_unexpected _)

theorem follows_identifier :
    Follows stop composites ts identifier (Parser.identifier stop ts) := by
  unfold Parser.identifier
  split
  case h_1 name span rest =>
    exact goes_peek.bind (goes_advance.bind (follows_pure rfl rfl))
  case h_2 other =>
    refine goes_peek.bind ?_
    cases ts with
    | nil => exact follows_unexpected _
    | cons t ts =>
      obtain ⟨kind, span⟩ := t
      cases kind
      case ident name => exact (other name span ts rfl).elim
      all_goals exact follows_unexpected _

theorem goes_identifier {name : String} {span : Span} :
    Goes stop composites (⟨.ident name, span⟩ :: ts) identifier name ts :=
  goes_peek.then (goes_advance.then goes_pure)

theorem goes_skipSemicolons :
    Goes stop composites ts skipSemicolons () (Parser.skipSemicolons ts).1 := by
  induction ts with
  | nil =>
    rw [skipSemicolons, read]
    exact (goes_not_eat rfl).then goes_pure
  | cons t ts ih =>
    rw [skipSemicolons, read]
    have head : Parser.atSymbol .semicolon (t :: ts) = t.isSymbol .semicolon := rfl
    unfold Parser.skipSemicolons at ih ⊢
    dsimp only at ih ⊢
    cases semicolon : t.isSymbol .semicolon with
    | true =>
      have some : Parser.eat .semicolon (t :: ts) = some ⟨ts, _⟩ := dif_pos (head.trans semicolon)
      rw [List.dropWhile_cons_of_pos semicolon]
      refine (goes_eat some).then ?_
      rw [if_pos rfl]
      exact ih
    | false =>
      have other : Parser.eat .semicolon (t :: ts) = none :=
        dif_neg (Bool.eq_false_iff.1 (head.trans semicolon))
      rw [List.dropWhile_cons_of_neg (Bool.eq_false_iff.1 semicolon)]
      refine (goes_not_eat other).then ?_
      rw [if_neg Bool.false_ne_true]
      exact goes_pure

theorem goes_skipComma : Goes stop composites ts skipComma () (Parser.skipComma ts).1 := by
  unfold Parser.skipComma
  split
  case h_1 rest shorter found => exact (goes_eat found).then goes_pure
  case h_2 other => exact (goes_not_eat other).then goes_pure

end Steps

section Composites

theorem Follows.within {allowed : Bool} {o : Outcome α n} (h : Follows stop allowed ts x o) :
    Follows stop composites ts (withComposites allowed x) o := by
  intro c here
  obtain ⟨c', moves, run, left⟩ := h { c with noComposite := !allowed } ⟨here.stop, rfl, here.left⟩
  refine ⟨{ c' with noComposite := c.noComposite },
    ⟨moves.tokens, rfl, moves.forth, moves.inside⟩, ?_, left⟩
  change Option.bind (x { c with noComposite := !allowed }) _ = _
  rw [run]
  rfl

end Composites

end Reading

end FieldAccess
