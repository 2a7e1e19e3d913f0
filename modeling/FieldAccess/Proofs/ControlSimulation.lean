import FieldAccess.Proofs.ContinueFlow
import FieldAccess.Proofs.SimpleStatements
import FieldAccess.Proofs.ScopeContents

namespace FieldAccess

theorem PairedMaps.of_subset {maps maps' : List (Nat × Nat)} (h : PairedMaps maps')
    (sub : maps ⊆ maps') : PairedMaps maps :=
  fun p hp q hq => h p (sub hp) q (sub hq)

namespace Stmt

mutual

-- What a shorthand stands for is no `continue`.
theorem continues_expand : ∀ s : Stmt, s.expand.continues = s.continues
  | .assign _ _ op _ => by
    cases op with
    | compound => rw [expand]; split <;> rfl
    | _ => rfl
  | .step .. => by rw [expand]; split <;> rfl
  | .block body => blockContinues_expand body
  | .ifElse _ _ _ body orElse => by
    rw [expand, continues, continues, blockContinues_expand body, optionContinues_expand orElse]
  | .switch _ _ _ cases => casesContinue_expand cases
  | .empty _ | .expr _ | .var _ _ _ _ | .forLoop _ _ _ _ _ | .range _ _ _ _ _ _ | .ret _ _
  | .breakLoop _ | .continueLoop _ => rfl

theorem optionContinues_expand : ∀ s : Option Stmt,
    optionContinues (expandOption s) = optionContinues s
  | none => rfl
  | some s => continues_expand s

theorem blockContinues_expand : ∀ b : Block, blockContinues (expandBlock b) = blockContinues b
  | .mk _ statements => listContinues_expand statements

theorem listContinues_expand : ∀ ss : List Stmt, listContinues (expandList ss) = listContinues ss
  | [] => rfl
  | s :: rest => by
    rw [expandList, listContinues, listContinues, continues_expand s, listContinues_expand rest]

theorem casesContinue_expand : ∀ cases : List Case,
    casesContinue (expandCases cases) = casesContinue cases
  | [] => rfl
  | .mk _ _ body :: rest => by
    rw [expandCases, casesContinue, casesContinue, listContinues_expand body,
      casesContinue_expand rest]

end

end Stmt

variable {S : Sides} {N M : List String} {base : List (Nat × Nat)} {rounds : Nat} {u : Usage}
  {r : RedirectContext} {c inner : TypeContext} {call : CallHandler} {holds : Machine → Bool}

namespace Step

theorem Simulates.of_paired {α β : Type} {x : Step α} {x' : Step β}
    {R : List (Nat × Nat) → α → β → Prop}
    (h : PairedMaps base → Simulates S N base x x' R) : Simulates S N base x x' R where
  run sub sync run := (h (sync.tables.paired.of_subset sub)).run sub sync run

theorem Stays.of_mayStop {x y : Step Flow} (h : Stays x) (stop : MayStop x y) : Stays y :=
  ⟨fun run => h.not_continues (stop.run run)⟩

theorem Gains.of_mayStop {α : Type} {names : List String} {x y : Step α} (h : Gains names x)
    (stop : MayStop x y) : Gains names y :=
  ⟨fun run => h.run (stop.run run)⟩

section

variable {cond cond' : Step Bool} {body body' post post' : Step Flow} {xs xs' ys : List (Step Flow)}

-- How a body ends that something follows.
theorem ok_followedBy {after : Step Flow} {f f₂ : Frame} {m m₂ : Machine} {flow : Flow} :
    body.followedBy after f m = .ok (flow, f₂) m₂ ↔
      ∃ ended f₁ m₁, body f m = .ok (ended, f₁) m₁ ∧ match ended with
        | .breaks | .returns _ => ended = flow ∧ f₁ = f₂ ∧ m₁ = m₂
        | .next | .continues => after f₁ m₁ = .ok (flow, f₂) m₂ := by
  rw [followedBy, ok_bind]
  refine exists_congr fun ended => exists_congr fun f₁ => exists_congr fun m₁ =>
    and_congr_right fun _ => ?_
  cases ended with
  | next | continues => rfl
  | breaks | returns => exact ok_pure

-- The rounds of a loop whose post statement moves into the body: wherever the post statement is
-- reached and succeeds, so does what comes in its place.
theorem round_simulates_moved
    (h : Simulates S N base (sequence xs) (sequence xs') (Flow.Alike S))
    (moved : ∀ {depth maps} {f g f₂ g' : Frame} {m m₁ m₂ m' ended flow},
      sequence xs f.push m = .ok (ended, g) m₁ → (ended = .next ∨ ended = .continues) →
      Sync S N (depth + 1) maps g m₁ g' m' → post g.pop m₁ = .ok (flow, f₂) m₂ →
      ended = .next ∧ ∃ maps₂ g'₁ m'₁ flow' f'₂ m'₂,
        maps ⊆ maps₂ ∧ sequence ys g' m' = .ok (.next, g'₁) m'₁ ∧
        post' g'₁.pop m'₁ = .ok (flow', f'₂) m'₂ ∧ Sync S N depth maps₂ f₂ m₂ f'₂ m'₂) :
    Simulates S N base ((inScope (sequence xs)).followedBy post.ending)
      ((inScope (sequence (xs' ++ ys))).followedBy post'.ending) (Flow.Alike S) where
  run {depth maps f m f' m' flow f₂ m₂} sub sync run := by
    obtain ⟨ended, _, m₁, first, last⟩ := ok_followedBy.1 run
    obtain ⟨g, inner, rfl⟩ := ok_inScope.1 first
    obtain ⟨maps₁, ended', g', m'₁, sub₁, run', sync₁, alike⟩ := h.run sub sync.push inner
    have early {kept : Flow} (stops : kept ≠ .next)
        (ran : sequence xs' f'.push m' = .ok (kept, g') m'₁) :
        inScope (sequence (xs' ++ ys)) f' m' = .ok (kept, g'.pop) m'₁ := by
      refine ok_inScope.2 ⟨g', ?_, rfl⟩
      rw [sequence_append]
      refine ok_bind.2 ⟨kept, g', m'₁, ran, ?_⟩
      cases kept with
      | next => exact absurd rfl stops
      | _ => rfl
    have reached (last : post.ending g.pop m₁ = .ok (flow, f₂) m₂) : flow = .next ∧
        ∃ flow, post g.pop m₁ = .ok (flow, f₂) m₂ := by
      obtain ⟨_, _, _, posted, ends⟩ := ok_bind.1 last
      obtain ⟨rfl, rfl, rfl⟩ := ok_pure.1 ends
      exact ⟨rfl, _, posted⟩
    cases alike with
    | breaks =>
      obtain ⟨rfl, rfl, rfl⟩ := last
      exact ⟨maps₁, .breaks, g'.pop, m'₁, sub₁,
        ok_followedBy.2 ⟨.breaks, _, _, early nofun run', rfl, rfl, rfl⟩, sync₁.pop, .breaks⟩
    | @returns _ vs' hs =>
      obtain ⟨rfl, rfl, rfl⟩ := last
      exact ⟨maps₁, .returns vs', g'.pop, m'₁, sub₁,
        ok_followedBy.2 ⟨.returns vs', _, _, early nofun run', rfl, rfl, rfl⟩, sync₁.pop, .returns hs⟩
    | continues =>
      obtain ⟨-, _, posted⟩ := reached last
      cases (moved inner (.inr rfl) sync₁ posted).1
    | next =>
      obtain ⟨rfl, _, posted⟩ := reached last
      obtain ⟨-, maps₂, g'₁, m'₂, flow', f'₂, m'₃, sub₂, appended, posted', sync₂⟩ :=
        moved inner (.inl rfl) sync₁ posted
      refine ⟨maps₂, .next, f'₂, m'₃, List.Subset.trans sub₁ sub₂, ok_followedBy.2
        ⟨.next, g'₁.pop, m'₂, ?_, ok_bind.2 ⟨_, _, _, posted', rfl⟩⟩, sync₂, .next⟩
      exact ok_inScope.2 ⟨g'₁, by rw [sequence_append_of_ok run', appended], rfl⟩

variable {x : Step Flow} {names : List String} {ss : List Stmt} {moved : Relocated}

-- A loop and its post statement, with what becomes of them.
theorem loop_simulates (hcond : Simulates S N base cond cond' fun _ b b' => b = b')
    (h : Simulates S N base (sequence xs) (sequence xs') (Flow.Alike S)) {written : Prop}
    (follows : moved.Follows S N M written rounds x) (noBefore : moved.before = [])
    (gains : Gains names (sequence xs)) (apart : written → ∀ y ∈ M, y ∉ names)
    (stays : moved.after ≠ [] → Stays (sequence xs)) (kinds : ∀ m, holds m = true → S.InKind m)
    (limit : Nat) :
    Simulates S N base
      (loop cond (inScope (sequence xs)) (do let flow ← x; watch holds; return flow) limit)
      (loop cond' (inScope (sequence (xs' ++ steps S.target S.call rounds moved.after)))
        (execOption S.target S.call rounds moved.header) limit) (Flow.Alike S) := by
  cases follows with
  | kept _ noAfter simulates =>
    rw [noAfter, steps, List.append_nil]
    exact .loop hcond (.inScope h) ((simulates.mono (List.nil_subset _) fun _ _ _ _ h => h).of_mayStop
      (.watched x)) limit
  | never fails =>
    rw [loop_followedBy, loop_followedBy cond']
    refine .loop hcond (round_simulates_moved h fun _ _ sync run => ?_) (.pure fun _ _ => trivial) limit
    exact absurd (ok_watched.1 run).1 (fails.run sync.pop)
  | fields field empty some sets =>
    rw [noBefore, List.nil_append] at sets some
    rw [empty, loop_followedBy, loop_followedBy cond']
    refine .loop hcond (round_simulates_moved h fun inner ended sync run => ?_)
      (.pure fun _ _ => trivial) limit
    obtain ⟨ran, held⟩ := ok_watched.1 run
    -- The post statement does the same in the scope of the body.
    obtain ⟨rfl, inside⟩ := sets.leaves.run
      (fun y hy => ((gains.run inner).get?_pop (apart field y hy)).symm) ran
    obtain ⟨-, maps₂, g'₁, m'₁, sub, moves, states⟩ := sets.run sync inside
    refine ⟨ended.resolve_right ?_, maps₂, g'₁, m'₁, .next, g'₁.pop, m'₁, sub, moves, rfl, ?_⟩
    · rintro rfl
      exact (stays some).not_continues inner
    · exact (⟨states, kinds _ held, sync.depth⟩ : Sync S N _ maps₂ _ _ _ _).pop

end

variable {tag tag' : Value} (sound : S.Sound) (agrees : ∀ f f' m, u.Agrees r c (S.view N f f' m))

include sound agrees

theorem check_simulates {e : Expr} {t : TypedExpr} (h : r.value c e = .ok t) (fits : e.Fits u)
    (names : e.names ⊆ N) :
    Simulates S N base (reading (Exec.check S.source call · e))
      (reading (Exec.check S.target S.call · t.expr)) fun _ b b' => b = b' :=
  .reading (fun _ => .bind (Exec.eval_onlyAllocates _ _ _ e (Expr.isCallFree_of_fits e fits))
      fun _ => .orFail ..)
    fun f f' m => .bind (Exec.eval_onlyAllocates _ _ _ e (Expr.isCallFree_of_fits e fits))
      (fun _ => .orFail ..) (Exec.eval_mimics sound (agrees f f' m) e h fits names (.inl rfl))
      fun _ _ _ _ _ hv => .truth hv

theorem matchesTag_simulates (h : Value.Alike S.loose base tag tag') {es : List Expr}
    {ts : List TypedExpr} (values : r.values c es = .ok ts) (fits : ∀ e ∈ es, e.Fits u)
    (names : ∀ e ∈ es, e.names ⊆ N) :
    Simulates S N base (matchesTag S.source call tag es)
      (matchesTag S.target S.call tag' (ts.map (·.expr))) fun _ b b' => b = b' := by
  replace values := RedirectContext.ok_values.1 values
  induction values generalizing base with
  | nil => exact .pure fun _ _ => rfl
  | cons head _ ih =>
    obtain ⟨fitsHead, fitsTail⟩ := List.forall_mem_cons.1 fits
    obtain ⟨namesHead, namesTail⟩ := List.forall_mem_cons.1 names
    refine .bind (eval_simulates sound agrees head fitsHead namesHead) fun maps v v' sub hv =>
      .of_paired fun paired => ?_
    have later := h.mono (List.Subset.refl _) sub
    rw [hv.equal_eq sound.loose_apart paired later]
    split
    · exact .pure fun _ _ => rfl
    · exact ih later fitsTail namesTail

-- The values of a case and what they become.
structure Values (r : RedirectContext) (c : TypeContext) (u : Usage) (N : List String)
    (es es' : List Expr) : Prop where
  become : ∃ ts, r.values c es = .ok ts ∧ es' = ts.map (·.expr)
  fits : ∀ e ∈ es, e.Fits u
  names : ∀ e ∈ es, e.names ⊆ N

theorem chooseCase_simulates (h : Value.Alike S.loose base tag tag') {cases cases' : List Case}
    (values : List.Forall₂ (fun a b => Values r c u N a.values b.values) cases cases') :
    Simulates S N base (chooseCase S.source call tag cases)
      (chooseCase S.target S.call tag' cases') fun _ => Eq := by
  have default : cases.findIdx? (·.values.isEmpty) = cases'.findIdx? (·.values.isEmpty) := by
    clear h
    induction values with
    | nil => rfl
    | @cons a b _ _ head _ ih =>
      obtain ⟨ts, run, become⟩ := head.become
      have same : a.values.isEmpty = b.values.isEmpty := by
        have length := (RedirectContext.ok_values.1 run).length_eq
        rw [become, List.isEmpty_map, Bool.eq_iff_iff, List.isEmpty_iff_length_eq_zero,
          List.isEmpty_iff_length_eq_zero, length]
      rw [List.findIdx?_cons, List.findIdx?_cons, same, ih]
  suffices go : ∀ {rest rest' : List Case},
    List.Forall₂ (fun a b => Values r c u N a.values b.values) rest rest' →
      ∀ {base : List (Nat × Nat)} (position : Nat), Value.Alike S.loose base tag tag' →
      Simulates S N base (chooseCase.go S.source call tag cases position rest)
        (chooseCase.go S.target S.call tag' cases' position rest') fun _ => Eq from go values 0 h
  intro rest rest' values
  induction values with
  | nil =>
    intro base position _
    rw [chooseCase.go, chooseCase.go, default]
    exact .pure fun _ _ => rfl
  | cons head _ ih =>
    intro base position h
    obtain ⟨ts, run, become⟩ := head.become
    rw [chooseCase.go, chooseCase.go, become]
    refine .bind (matchesTag_simulates sound agrees h run head.fits head.names) fun maps b _ sub e => ?_
    subst e
    cases b with
    | true => exact .pure fun _ _ => rfl
    | false => exact ih (position + 1) (h.mono (List.Subset.refl _) sub)

section

variable {cases cases' : List Case} {bodies bodies' : List (Step Flow)}
  (values : List.Forall₂ (fun a b => Values r c u N a.values b.values) cases cases')
  (hbodies : List.Forall₂ (fun x x' => Simulates S N [] x x' (Flow.Alike S)) bodies bodies')

include values hbodies

-- The body of the chosen case runs, up to a `break`.
theorem chosen_simulates (h : Value.Alike S.loose base tag tag') :
    Simulates S N base
      (do
        match (← chooseCase S.source call tag cases).bind (bodies[·]?) with
        | none => return .next
        | some body =>
          match ← body with
          | .breaks => return .next
          | flow => return flow)
      (do
        match (← chooseCase S.target S.call tag' cases').bind (bodies'[·]?) with
        | none => return .next
        | some body =>
          match ← body with
          | .breaks => return .next
          | flow => return flow)
      (Flow.Alike S) := by
  refine .bind (chooseCase_simulates sound agrees h values) fun maps position _ _ same => ?_
  subst same
  have body : Option.Rel (fun x x' => Simulates S N [] x x' (Flow.Alike S))
      (position.bind (bodies[·]?)) (position.bind (bodies'[·]?)) := by
    cases position with
    | none => exact .none
    | some position => exact forall₂_getElem? hbodies position
  revert body
  generalize position.bind (bodies[·]?) = body, position.bind (bodies'[·]?) = body'
  intro body
  cases body with
  | none => exact .pure fun _ _ => .next
  | some body =>
    refine .bind (body.base_mono (List.nil_subset _)) fun maps flow flow' _ hflow => ?_
    cases hflow with
    | breaks => exact .pure fun _ _ => .next
    | next => exact .pure fun _ _ => .next
    | continues => exact .pure fun _ _ => .continues
    | returns hs =>
      exact .pure fun _ sub => .returns (hs.imp fun _ _ hv => hv.mono (List.Subset.refl _) sub)

theorem cases_simulate {e e' : Option Expr} (value : r.value? c e = .ok e')
    (fits : ∀ x ∈ e, x.Fits u) (names : ∀ x ∈ e, x.names ⊆ N) :
    Simulates S N base
      (do
        let tag ← match e with
          | none => pure (.bool true)
          | some tag => eval S.source call tag
        match (← chooseCase S.source call tag cases).bind (bodies[·]?) with
        | none => return .next
        | some body =>
          match ← body with
          | .breaks => return .next
          | flow => return flow)
      (do
        let tag ← match e' with
          | none => pure (.bool true)
          | some tag => eval S.target S.call tag
        match (← chooseCase S.target S.call tag cases').bind (bodies'[·]?) with
        | none => return .next
        | some body =>
          match ← body with
          | .breaks => return .next
          | flow => return flow)
      (Flow.Alike S) := by
  cases e with
  | none =>
    obtain rfl := FieldAccess.ok_pure.1 value
    exact chosen_simulates sound agrees values hbodies (.bool true)
  | some e =>
    simp only [RedirectContext.value?, FieldAccess.ok_bind, FieldAccess.ok_pure] at value
    obtain ⟨t, ht, rfl⟩ := value
    exact .bind (eval_simulates sound agrees ht (fits e rfl) (names e rfl)) fun _ _ _ _ alike =>
      chosen_simulates sound agrees values hbodies alike

end

end Step

-- A post statement is simple. If it writes fields, it uses no variable that the body declares in
-- its own scope.
structure Stmt.FitsPost (u : Usage) (post : Option Stmt) (body : List Stmt) : Prop where
  simple : ∀ s ∈ post, s.SimplyFits u
  apart : (∃ s ∈ post, s.WritesField u) → ∀ x ∈ namesOfOption post, x ∉ body.flatMap (·.declared)

namespace RedirectContext

variable (sound : S.Sound) (agrees : ∀ f f' m, u.Agrees r c (S.view N f f' m))
  (within : ∀ f f' m, u.Agrees r inner (S.view N f f' m))
  (kinds : ∀ m, holds m = true → S.InKind m) {temps temps₁ temps₂ : Temporaries}
  (covers : N ⊆ temps.taken) (covers₁ : N ⊆ temps₁.taken)

include sound agrees within kinds covers covers₁

-- A loop with three clauses, with the statements of its body and those that they become.
theorem forLoop_simulates {span at_ at' : Span} {init post : Option Stmt} {cond cond' : Option Expr}
    {body body' : List Stmt} {moved movedPost : Relocated}
    (fits : ∀ s ∈ init, s.SimplyFits u) (fitsCond : ∀ e ∈ cond, e.Fits u)
    (fitsPost : Stmt.FitsPost u post body)
    (names : namesOfOption (Stmt.expandOption init) ⊆ N) (namesCond : ∀ e ∈ cond, e.names ⊆ N)
    (namesPost : namesOfOption (Stmt.expandOption post) ⊆ N)
    (hinit : r.header c .forInit (Stmt.expandOption init) temps = .ok (moved, temps₁))
    (hcond : r.value? inner cond = .ok cond')
    (hpost : r.header inner .forPost (Stmt.expandOption post) temps₁ = .ok (movedPost, temps₂))
    (reaches : movedPost.after ≠ [] → Stmt.listContinues body = false)
    (simulates : Step.Simulates S N []
      (Step.sequence (Step.watchedSteps S.source call rounds holds body))
      (Step.sequence (Step.steps S.target S.call rounds body')) (Flow.Alike S)) :
    Step.Simulates S N []
      (Step.watched S.source call rounds holds (.forLoop span init cond post (.mk at_ body)))
      (Step.sequence (Step.steps S.target S.call rounds (moved.before ++
        [.forLoop span moved.header cond' movedPost.header (.mk at' (body' ++ movedPost.after))])))
      (Flow.Alike S) := by
  have looped {check check' : Step Bool}
      (checks : Step.Simulates S N [] check check' fun _ b b' => b = b') :
      Step.Simulates S N [] (Step.loop check
          (Step.inScope (Step.sequence (Step.watchedSteps S.source call rounds holds body)))
          (Step.watchedOption S.source call rounds holds post) rounds)
        (Step.loop check'
          (Step.inScope (Step.sequence (Step.steps S.target S.call rounds (body' ++ movedPost.after))))
          (Step.execOption S.target S.call rounds movedPost.header) rounds) (Flow.Alike S) := by
    rw [Step.steps_append]
    cases post with
    | none =>
      obtain ⟨rfl, -⟩ := Redirecting.ok_pure.1 hpost
      rw [Step.steps, List.append_nil]
      exact .loop checks (.inScope simulates) (.pure fun _ _ => trivial) rounds
    | some s =>
      have watched : Step.watchedOption S.source call rounds holds (some s) = _ :=
        (fitsPost.simple s rfl).watched_eq S.source
      rw [watched]
      have stop := Step.MayStop.sequence (Step.watchedSteps_mayStop S.source call rounds holds body)
      exact Step.loop_simulates checks simulates
        (header_follows rounds call sound within covers₁ fitsPost.simple namesPost hpost)
        (header_before hpost) ((Step.Gains.sequence (Step.steps_gain _ _ _ body)).of_mayStop stop)
        fitsPost.apart (fun moves => (Step.Stays.sequence (Step.steps_stay _ _ _ body
          (reaches moves))).of_mayStop stop) kinds rounds
  unfold Step.watched
  rw [Step.steps_append]
  refine initializer_simulates rounds sound agrees covers (by decide) fits names kinds hinit
    (looped ?_)
  cases cond with
  | none =>
    obtain rfl := FieldAccess.ok_pure.1 hcond
    exact .pure fun _ _ => rfl
  | some e =>
    simp only [RedirectContext.value?, FieldAccess.ok_bind, FieldAccess.ok_pure] at hcond
    obtain ⟨t, ht, rfl⟩ := hcond
    exact Step.check_simulates sound within ht (fitsCond e rfl) (namesCond e rfl)

end RedirectContext

end FieldAccess
