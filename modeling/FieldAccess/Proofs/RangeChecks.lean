import FieldAccess.Proofs.SettledValues
import FieldAccess.Proofs.WriteChecks

namespace FieldAccess

-- The expression is a list or a map.
def TypeContext.IsContainer (c : TypeContext) (e : Expr) : Prop :=
  ∃ type, c.typeOf? e = some (.known type) ∧ type.element?.isSome

namespace RedirectContext

variable {r : RedirectContext} {span : Span} {temps : Temporaries}

-- The targets of a loop, with the types of variables in their places.
def loopTargets (key value : Option Target) (types : Option TypeExpr × Option TypeExpr) :
    List (Target × Option TypeExpr) :=
  key.toList.map (·, types.1) ++ value.toList.map (·, types.2)

section

variable {c : TypeContext} {iterable : Expr}

-- What lists and maps hold has the types that variables have, and nothing is known of what anything
-- else holds.
theorem elementTypes_container (h : c.IsContainer iterable) :
    elementTypes (c.typeOf? iterable) = c.rangeTypes? iterable := by
  obtain ⟨type, is, holds⟩ := h
  rw [TypeContext.rangeTypes?, is]
  cases type with
  | slice | map => rfl
  | named | pointer | approx => cases holds

theorem elementTypes_other (h : ¬c.IsContainer iterable) :
    elementTypes (c.typeOf? iterable) = (none, none) := by
  unfold elementTypes
  split
  · exact absurd ⟨_, ‹_›, rfl⟩ h
  · exact absurd ⟨_, ‹_›, rfl⟩ h
  · rfl

end

-- A target of a loop passes unless it is a field that a variable in its place does not suit.
theorem rangeTarget_ok_or (r : RedirectContext) (span : Span) (type : Option TypeExpr)
    (t : Option Target) (temps : Temporaries) :
    (∃ out, r.rangeTarget span type t temps = .ok out) ∨ ∃ t' ∈ t, ∃ e,
      Mismatch r span t' (type.map .known) e ∧ r.rangeTarget span type t temps = .error e := by
  rcases t with _ | t
  · exact .inl ⟨_, rfl⟩
  cases t with
  | blank | plain => exact .inl ⟨_, rfl⟩
  | field receiver info =>
    rw [rangeTarget, Redirecting.bind_modifyGet]
    rcases r.checkWrite_ok_or span receiver info (type.map .known) with passed | ⟨e, mismatch, stopped⟩
    · exact .inl ⟨_, Redirecting.bind_lift passed _⟩
    · exact .inr ⟨_, rfl, e, mismatch, Redirecting.bind_of_error (Redirecting.error_lift.2 stopped) _⟩

theorem Mismatch.known {t : Target} {type : Option StaticType} {e : RedirectError}
    (h : Mismatch r span t type e) : t.isField = true ∧ type.isSome = true := by
  cases h
  exact ⟨rfl, rfl⟩

theorem rangeTarget_of_mismatch {type : Option TypeExpr} {t : Target} {e : RedirectError}
    (mismatch : Mismatch r span t (type.map .known) e) (temps : Temporaries) :
    r.rangeTarget span type (some t) temps = .error e := by
  cases t with
  | blank | plain => cases mismatch
  | field receiver info =>
    rw [rangeTarget, Redirecting.bind_modifyGet]
    exact Redirecting.bind_of_error (Redirecting.error_lift.2 (checkWrite_of_mismatch mismatch)) _

section

variable {σ : Type} [TypeOracle σ] {o : σ} {key value : Option Expr} {kt vt : Option Target}
  (keys : r.targets o key.toList = .ok kt.toList) (values : r.targets o value.toList = .ok vt.toList)
include keys values

variable (span temps) in
-- The header of a loop is refused only if one of its targets is.
theorem rangeHeader_ok_or (type : Option StaticType) :
    (∃ out, r.rangeHeader o span key value type temps = .ok out) ∨
      ∃ w ∈ loopTargets kt vt (elementTypes type), ∃ e, Mismatch r span w.1 (w.2.map .known) e ∧
        r.rangeHeader o span key value type temps = .error e := by
  rw [rangeHeader, Redirecting.bind_of_ok (ok_mapM_target.2 ⟨keys, rfl⟩),
    Redirecting.bind_of_ok (ok_mapM_target.2 ⟨values, rfl⟩)]
  split
  case isFalse => exact .inl ⟨_, rfl⟩
  case isTrue =>
    dsimp only
    rcases r.rangeTarget_ok_or span (elementTypes type).1 kt temps with
      ⟨⟨out, temps'⟩, first⟩ | ⟨t, mem, e, mismatch, first⟩
    · rw [Redirecting.bind_of_ok first]
      rcases r.rangeTarget_ok_or span (elementTypes type).2 vt temps' with
        ⟨⟨out', temps'⟩, second⟩ | ⟨t, mem, e, mismatch, second⟩
      · exact .inl ⟨_, Redirecting.bind_of_ok second _⟩
      · refine .inr ⟨(t, _), ?_, e, mismatch, Redirecting.bind_of_error second _⟩
        exact List.mem_append_right _ (List.mem_map_of_mem (Option.mem_toList.2 mem))
    · refine .inr ⟨(t, _), ?_, e, mismatch, Redirecting.bind_of_error first _⟩
      exact List.mem_append_left _ (List.mem_map_of_mem (Option.mem_toList.2 mem))

theorem rangeHeader_accepted {type : Option StaticType} {out : RangeHeader × Temporaries}
    (accepted : r.rangeHeader o span key value type temps = .ok out) :
    ∀ w ∈ loopTargets kt vt (elementTypes type), ∀ e, ¬Mismatch r span w.1 (w.2.map .known) e := by
  intro w mem e mismatch
  have field : w.1.isField = true := mismatch.known.1
  rw [rangeHeader, Redirecting.bind_of_ok (ok_mapM_target.2 ⟨keys, rfl⟩),
    Redirecting.bind_of_ok (ok_mapM_target.2 ⟨values, rfl⟩)] at accepted
  simp only [loopTargets, List.mem_append, List.mem_map, Option.mem_toList] at mem
  have some : kt.any (·.isField) || vt.any (·.isField) := by
    rcases mem with ⟨t, rfl, rfl⟩ | ⟨t, rfl, rfl⟩ <;> simp_all
  rw [if_pos some] at accepted
  generalize elementTypes type = types at mem accepted
  obtain ⟨first, temps₁, ofKey, accepted⟩ := Redirecting.ok_bind.1 accepted
  obtain ⟨second, temps₂, ofValue, -⟩ := Redirecting.ok_bind.1 accepted
  rcases mem with ⟨t, rfl, rfl⟩ | ⟨t, rfl, rfl⟩
  · cases (rangeTarget_of_mismatch mismatch temps).symm.trans ofKey
  · cases (rangeTarget_of_mismatch mismatch temps₁).symm.trans ofValue

end

-- An assignment without a value for each target is not refused, whatever it writes.
theorem planAssign_unpaired {σ : Type} [TypeOracle σ] {o : σ} {written values : List Expr}
    {ts : List Target} {vs : List TypedExpr} (targets : r.targets o written = .ok ts)
    (sources : r.values o values = .ok vs) (unpaired : written.length ≠ values.length) :
    ∃ out, r.planAssign o span written values temps = .ok out := by
  have unpaired : ts.length ≠ vs.length := by
    rwa [← (ok_mapM.1 targets).length_eq, ← (ok_values.1 sources).length_eq]
  exact planAssign_ok targets sources (fun paired => absurd paired unpaired) temps

-- A loop over a list or a map that writes fields is refused if a variable in the place of one of them
-- would have a type that the field does not accept. Loops over anything else and assignments without
-- a value for each target write unchecked.
theorem position_types_checked {c : TypeContext} (hr : r.scope.catalog = c.catalog) :
    (∀ span key value iterable body kt vt v, r.targets c key.toList = .ok kt.toList →
      r.targets c value.toList = .ok vt.toList → r.value c iterable = .ok v →
      (c.IsContainer iterable →
        let ws := loopTargets kt vt (c.rangeTypes? iterable)
        ∀ receiver info type, (.field receiver info, some type) ∈ ws →
          info.accepts (.known type) = false →
          ∀ elseIf temps, ∃ w ∈ ws, ∃ e, Mismatch r span w.1 (w.2.map .known) e ∧
            r.stmt c elseIf (.range span key value false iterable body) temps = .error e) ∧
      (¬c.IsContainer iterable →
        ∀ temps, ∃ out, r.rangeHeader c span key value v.type temps = .ok out)) ∧
    ∀ span written values ts vs temps, r.targets c written = .ok ts → r.values c values = .ok vs →
      written.length ≠ values.length →
      ∃ out, r.planAssign c span written values temps = .ok out := by
  refine ⟨fun span key value iterable body kt vt v keys values source => ⟨?_, ?_⟩,
    fun span written values ts vs temps targets sources unpaired =>
      planAssign_unpaired targets sources unpaired⟩
  · intro container ws receiver info type mem refused elseIf temps
    have types : elementTypes v.type = c.rangeTypes? iterable :=
      (congrArg elementTypes (value_type hr iterable v source)).trans
        (elementTypes_container container)
    obtain ⟨expected, takes⟩ : ∃ expected, info.writeType? = some expected := by
      cases h : info.writeType? with
      | none => simp [FieldInfo.accepts, h] at refused
      | some expected => exact ⟨expected, rfl⟩
    have mismatch : Mismatch r span (.field receiver info) (some (.known type)) _ :=
      .field takes refused
    have stops : ¬∃ out, r.rangeHeader c span key value v.type temps = .ok out := by
      rintro ⟨_, accepted⟩
      exact rangeHeader_accepted keys values accepted _ (by rw [types]; exact mem) _ mismatch
    obtain ⟨w, hw, e, mismatch, stopped⟩ :=
      (rangeHeader_ok_or span temps keys values v.type).resolve_left stops
    rw [types] at hw
    refine ⟨w, hw, e, mismatch, ?_⟩
    rw [stmt, Redirecting.bind_lift source]
    exact Redirecting.bind_of_error stopped _
  · intro other temps
    refine (rangeHeader_ok_or span temps keys values v.type).resolve_right ?_
    rw [value_type hr iterable v source, elementTypes_other other]
    rintro ⟨w, mem, e, mismatch, -⟩
    have unknown : w.2 = none := by
      simp only [loopTargets, List.mem_append, List.mem_map] at mem
      rcases mem with ⟨_, _, rfl⟩ | ⟨_, _, rfl⟩ <;> rfl
    simpa [unknown] using mismatch.known.2

-- The loop `for _, o.note = range ns` is refused, `for o.note = range n` is not, and neither is
-- `o.count, o.note = ns[n]`.
theorem position_types_checked_tagged :
    let name (x : String) : Expr := .ident .nowhere x
    let field (f : String) : Expr := .select .nowhere (name "o") f
    let note : Target := .field (name "o") .taggedNote
    (∃ e, Mismatch tagged .nowhere note (some (.known .int)) e ∧
      tagged.stmt TypeContext.tagged false (.range .nowhere (some (name "_")) (some (field "note"))
        false (name "ns") (.mk .nowhere [])) ⟨[]⟩ = .error e) ∧
    (∃ out, tagged.rangeHeader TypeContext.tagged .nowhere (some (field "note")) none
      (some (.known .int)) ⟨[]⟩ = .ok out) ∧
    ∃ out, tagged.planAssign TypeContext.tagged .nowhere [field "count", field "note"]
      [.index .nowhere (name "ns") (name "n")] ⟨[]⟩ = .ok out := by
  intro name field note
  obtain ⟨loops, pairs⟩ := position_types_checked (r := tagged) (c := TypeContext.tagged) rfl
  refine ⟨?_, ?_, ?_⟩
  · obtain ⟨checked, -⟩ := loops .nowhere (some (name "_")) (some (field "note")) (name "ns")
      (.mk .nowhere []) (some .blank) (some note) ⟨name "ns", some (.known (.slice .int))⟩
      rfl rfl rfl
    obtain ⟨w, mem, e, mismatch, stopped⟩ := checked ⟨_, rfl, rfl⟩ (name "o") .taggedNote .int
      (.tail _ (.head _)) (by decide +kernel) false ⟨[]⟩
    rcases List.mem_pair.1 mem with rfl | rfl
    · cases mismatch
    · exact ⟨e, mismatch, stopped⟩
  · obtain ⟨-, unchecked⟩ := loops .nowhere (some (field "note")) none (name "n") (.mk .nowhere [])
      (some note) none ⟨name "n", some (.known .int)⟩ rfl rfl rfl
    refine unchecked ?_ ⟨[]⟩
    rintro ⟨type, is, holds⟩
    cases is
    cases holds
  · exact pairs .nowhere _ _ [.field (name "o") .taggedCount, note] [_] ⟨[]⟩ rfl rfl (by decide)

end RedirectContext

-- The method `func (o *Order) Pair() (string, int)`.
def FuncDecl.taggedPair : FuncDecl where
  doc := none
  receiver := some ⟨"o", .pointer (.named "Order")⟩
  name := "Pair"
  typeParams := []
  params := []
  results := [.string, .int]
  body := .mk .nowhere []
  span := .nowhere

namespace RedirectContext

-- A variable in the place of `o.note` would be an integer in `for o.note = range n` and in
-- `o.count, o.note = o.Pair()`, where one in the place of `o.count` would be a text. All are accepted.
theorem mismatch_by_position_accepted :
    let c := { TypeContext.tagged with methods := ⟨[.taggedPair]⟩ }
    let name (x : String) : Expr := .ident .nowhere x
    let field (f : String) : Expr := .select .nowhere (name "o") f
    let pair : Expr := .call .nowhere (field "Pair") [] []
    tagged.scope.catalog = (Catalog.build .tagged .standard {}).value ∧
    FieldInfo.taggedNote.accepts (.known .int) = false ∧
    FieldInfo.taggedCount.accepts (.known .string) = false ∧
    (c.rangeTypes? (name "n") = (some .int, none) ∧
      ∃ out, tagged.stmt c false (.range .nowhere (some (field "note")) none false (name "n")
        (.mk .nowhere [])) ⟨[]⟩ = .ok out) ∧
    c.definedTypes 2 [pair] = [some .string, some .int] ∧
    ∃ out, tagged.stmt c false (.assign .nowhere [field "count", field "note"] .assign [pair]) ⟨[]⟩ =
      .ok out := by
  intro c name field pair
  refine ⟨Catalog.build_tagged.symm, by decide +kernel, by decide +kernel,
    ⟨rfl, exists_ok (by decide +kernel)⟩, rfl, exists_ok (by decide +kernel)⟩

end RedirectContext

end FieldAccess
