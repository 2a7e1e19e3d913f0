import FieldAccess.Generate.Session
import Mathlib.Tactic.Common

namespace FieldAccess

section

variable {ε α : Type}

-- The errors among results.
def failures (rs : List (Except ε α)) : List ε :=
  rs.filterMap fun
    | .error e => some e
    | .ok _ => none

theorem partitionResults_fst (rs : List (Except ε α)) : (partitionResults rs).1 = failures rs := by
  induction rs with
  | nil => rfl
  | cons r rest ih =>
    cases r with
    | error e => exact congrArg (e :: ·) ih
    | ok a => exact ih

end

theorem ClassificationError.report_eq (e : ClassificationError) (strict : Bool) :
    e.report strict = ⟨if strict then .error else .warning, e.span, e.message, some e.context⟩ := by
  cases strict <;> rfl

theorem Catalog.level_of_mem_collectionNotes {c : Catalog} {d : Diagnostic}
    (h : d ∈ c.collectionNotes) : d.level = .info := by
  obtain ⟨_, _, rfl⟩ := List.mem_map.1 h
  rfl

-- What can be wrong with a schema and the methods of its entities.
structure Findings where
  classification : List ClassificationError
  redirect : List RedirectError
  collisions : List NameCollision

namespace Findings

-- All that is wrong: the errors of the classification, those of the methods that cannot be
-- redirected, and the collisions on the wrappers of all entities.
def ofBuilt (built : Catalog.Built Catalog) (settings : Settings) (methods : List FuncDecl) :
    Findings where
  classification := built.errors
  redirect := failures (methods.map (·.redirect built.value ⟨methods⟩ settings))
  collisions := built.value.entities.flatMap fun e =>
    (Namespace.ofEntity e methods).collisions settings.reserved

-- Whether a run stops before it looks at names.
def Stop (found : Findings) (strict : Bool) : Prop :=
  found.redirect ≠ [] ∨ strict = true ∧ found.classification ≠ []

instance (found : Findings) (strict : Bool) : Decidable (found.Stop strict) :=
  inferInstanceAs (Decidable (_ ∨ _))

-- One diagnostic for each error that a run comes to.
def diagnostics (found : Findings) (strict : Bool) : List Diagnostic :=
  found.classification.map (fun e =>
      ⟨if strict then .error else .warning, e.span, e.message, some e.context⟩) ++
    found.redirect.map (fun e => ⟨.error, e.span, e.message, some e.method⟩) ++
    if found.Stop strict then []
    else found.collisions.map fun c => ⟨.error, c.span, c.message, some c.name⟩

end Findings

namespace Run

variable {built : Catalog.Built Catalog} {settings : Settings} {methods : List FuncDecl}

-- A run in terms of all that is wrong.
theorem ofCatalog_eq (found : Findings) (h : found = Findings.ofBuilt built settings methods) :
    ofCatalog settings built methods =
      if found.Stop settings.strict then
        ⟨.error (.failed (if settings.strict then found.classification else []) found.redirect),
          found.diagnostics settings.strict⟩
      else if found.collisions ≠ [] then
        ⟨.error (.collisions found.collisions), found.diagnostics settings.strict⟩
      else
        ⟨.ok ⟨built.value.declarations built.enums settings
            (partitionResults (methods.map (·.redirect built.value ⟨methods⟩ settings))).2,
            built.enums.entries⟩,
          found.diagnostics settings.strict ++ built.value.collectionNotes⟩ := by
  have errors : (partitionResults
      (methods.map (·.redirect built.value ⟨methods⟩ settings))).1 = found.redirect :=
    h ▸ partitionResults_fst _
  have names : Namespace.allCollisions settings.reserved
      (built.value.entities.map (Namespace.ofEntity · methods)) = found.collisions :=
    h ▸ List.flatMap_map ..
  have first : built.errors = found.classification := h ▸ rfl
  have reports : found.classification.map (·.report settings.strict) = found.classification.map
      (fun e => ⟨if settings.strict then .error else .warning, e.span, e.message, some e.context⟩) :=
    List.map_congr_left fun e _ => e.report_eq settings.strict
  have fatal : (!found.redirect.isEmpty ||
      !(if settings.strict then found.classification else []).isEmpty) = true ↔
        found.Stop settings.strict := by
    unfold Findings.Stop
    cases settings.strict <;> simp
  clear h
  simp only [ofCatalog, Findings.diagnostics, errors, first, reports, fatal]
  by_cases stop : found.Stop settings.strict
  · simp only [if_pos stop, List.append_nil]
    rfl
  · have mild : found.redirect = [] := by_contra fun h => stop (.inl h)
    simp only [if_neg stop, mild]
    by_cases clear : found.collisions = []
    · rw [Namespace.check_of_eq_nil (names.trans clear)]
      simp [clear]
    · rw [Namespace.check_of_ne_nil (by rwa [names]), names]
      simp only [ne_eq, clear, not_false_eq_true, if_true]
      rfl

end Run

-- What a session is asked for.
inductive SessionRequest where
  | classify
  | generate (methods : List FuncDecl)

-- What a request reports to the log of a session with the given schema and settings.
def SessionRequest.reports (schema : Schema) (settings : Settings) :
    SessionRequest → List Diagnostic
  | classify => []
  | generate methods => (Run.ofSchema schema settings methods).reports

namespace Session

-- A session before its first request, with a log of its own.
def fresh (schema : Schema) (settings : Settings) : Session :=
  { schema, settings }

def handle (s : Session) : SessionRequest → Session
  | .classify => s.classify
  | .generate methods => (s.generate methods).2

-- The session after a sequence of requests.
def after (s : Session) (requests : List SessionRequest) : Session :=
  requests.foldl handle s

-- What a run gives: an error, or what was generated together with all diagnostics in the log.
def answer (s : Session) (methods : List FuncDecl) :
    Except GenerateError (Generated × List Diagnostic) :=
  let (result, s) := s.generate methods
  result.map fun g => (g, s.log.reported)

-- Of the session, a run reads the schema and the settings, and it extends the log.
theorem answer_eq (s : Session) (methods : List FuncDecl) :
    s.answer methods = (Run.ofSchema s.schema s.settings methods).result.map fun g =>
      (g, s.log.reported ++ (Run.ofSchema s.schema s.settings methods).reports) := rfl

theorem answer_congr {s s' : Session} (methods : List FuncDecl) (schema : s.schema = s'.schema)
    (settings : s.settings = s'.settings) (log : s.log = s'.log) :
    s.answer methods = s'.answer methods := by
  rw [answer_eq, answer_eq, schema, settings, log]

section

variable (s : Session) (requests : List SessionRequest)

theorem handle_schema (q : SessionRequest) : (s.handle q).schema = s.schema := by
  cases q <;> rfl

theorem handle_settings (q : SessionRequest) : (s.handle q).settings = s.settings := by
  cases q <;> rfl

theorem handle_reported (q : SessionRequest) :
    (s.handle q).log.reported = s.log.reported ++ q.reports s.schema s.settings := by
  cases q with
  | classify => exact (List.append_nil _).symm
  | generate => rfl

theorem after_schema : (s.after requests).schema = s.schema := by
  induction requests generalizing s with
  | nil => rfl
  | cons q rest ih => exact (ih (s.handle q)).trans (s.handle_schema q)

theorem after_settings : (s.after requests).settings = s.settings := by
  induction requests generalizing s with
  | nil => rfl
  | cons q rest ih => exact (ih (s.handle q)).trans (s.handle_settings q)

theorem after_reported : (s.after requests).log.reported =
    s.log.reported ++ requests.flatMap (·.reports s.schema s.settings) := by
  induction requests generalizing s with
  | nil => exact (List.append_nil _).symm
  | cons q rest ih =>
    have rest := ih (s.handle q)
    rw [handle_schema, handle_settings, handle_reported] at rest
    rw [List.flatMap_cons, ← List.append_assoc]
    exact rest

end

-- After any requests a run answers what it answers in a fresh session, except that its diagnostics
-- come after those of the earlier runs. With an empty log there is no difference.
theorem answer_after (schema : Schema) (settings : Settings) (requests : List SessionRequest)
    (methods : List FuncDecl) :
    let new := fresh schema settings
    let earlier := requests.flatMap (·.reports schema settings)
    (new.after requests).answer methods =
        (new.answer methods).map (fun (g, ds) => (g, earlier ++ ds)) ∧
      (new.after requests).clearLog.answer methods = new.answer methods := by
  intro new earlier
  have schema_eq : (new.after requests).schema = schema := after_schema ..
  have settings_eq : (new.after requests).settings = settings := after_settings ..
  have log : (new.after requests).log.reported = earlier := after_reported ..
  refine ⟨?_, answer_congr methods schema_eq settings_eq rfl⟩
  rw [answer_eq, answer_eq, schema_eq, settings_eq, log]
  change _ = Except.map _ (Except.map _ (Run.ofSchema schema settings methods).result)
  cases (Run.ofSchema schema settings methods).result <;> rfl

-- A second run gives the note of the first once more.
theorem second_answer_repeats_note :
    let new := fresh ⟨[{ name := "Note", fields := [] }]⟩ .standard
    (new.after [.generate []]).answer [] ≠ new.answer [] := by
  intro new same
  have counts : ((new.after [.generate []]).answer []).map (·.2.length) = .ok 2 ∧
      (new.answer []).map (·.2.length) = .ok 1 := ⟨by rfl, by rfl⟩
  rw [same] at counts
  exact absurd (counts.1.symm.trans counts.2) (by simp)

-- A run reports each error that it comes to once, stage by stage, and beside these only notes, and
-- notes only if it succeeds. It fails with the errors of the first two stages if one of them is
-- fatal, else with all collisions if there are any, and gives declarations in no other case.
theorem errors_reported_once (s : Session) (methods : List FuncDecl) :
    let result := (s.generate methods).1
    let after := (s.generate methods).2
    let found := Findings.ofBuilt (Catalog.build s.schema s.settings {}) s.settings methods
    (∃ notes, after.log.reported = s.log.reported ++ found.diagnostics s.settings.strict ++ notes ∧
      (∀ d ∈ notes, d.level = .info) ∧ (notes ≠ [] → ∃ g, result = .ok g)) ∧
    (∀ classification redirect, result = .error (.failed classification redirect) ↔
      found.Stop s.settings.strict ∧ redirect = found.redirect ∧
        classification = if s.settings.strict then found.classification else []) ∧
    (∀ collisions, result = .error (.collisions collisions) ↔
      ¬found.Stop s.settings.strict ∧ found.collisions ≠ [] ∧ collisions = found.collisions) ∧
    ((∃ g, result = .ok g) ↔ ¬found.Stop s.settings.strict ∧ found.collisions = []) := by
  intro result after found
  let run := Run.ofCatalog s.settings (Catalog.build s.schema s.settings {}) methods
  have answer : result = run.result := rfl
  have log : after.log.reported = s.log.reported ++ run.reports := rfl
  have eq : run = _ := Run.ofCatalog_eq found rfl
  clear_value run found result
  rw [answer, log, eq]
  by_cases stop : found.Stop s.settings.strict
  · simp only [if_pos stop]
    refine ⟨⟨[], by simp, by simp, by simp⟩, fun _ _ => ?_, fun _ => ?_, ?_⟩
    · exact ⟨by rintro ⟨⟩; exact ⟨stop, rfl, rfl⟩, by rintro ⟨_, rfl, rfl⟩; rfl⟩
    · simp [stop]
    · simp [stop]
  · simp only [if_neg stop]
    by_cases clear : found.collisions = []
    · simp only [clear, ne_eq, not_true_eq_false, if_false]
      refine ⟨⟨_, (List.append_assoc ..).symm, fun d => Catalog.level_of_mem_collectionNotes,
        fun _ => ⟨_, rfl⟩⟩, fun _ _ => ?_, fun _ => ?_, ?_⟩ <;> simp [stop]
    · simp only [ne_eq, clear, not_false_eq_true, if_true]
      refine ⟨⟨[], by simp, by simp, by simp⟩, fun _ _ => ?_, fun _ => ?_, ?_⟩
      · simp [stop]
      · exact ⟨by rintro ⟨⟩; exact ⟨stop, trivial, rfl⟩, by rintro ⟨_, _, rfl⟩; rfl⟩
      · simp

end Session

end FieldAccess
