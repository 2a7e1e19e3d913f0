import FieldAccess.Proofs.DeclaredTemporaries
import FieldAccess.Proofs.DeclaredTypes
import FieldAccess.Proofs.TemporaryNames
import FieldAccess.Proofs.WriteChecks

namespace FieldAccess

-- A name that is called to convert a value to the enumeration of a field.
def Catalog.Converts (c : Catalog) (settings : Settings) (x : String) : Prop :=
  ∃ info enum, c.Proxies info ∧ info.enum? = some enum ∧ (x = enum ∨ x = settings.sliceHelper enum)

namespace FuncDecl

-- What a temporary may be named after.
inductive Hint (f : FuncDecl) (c : Catalog) : String → Prop
  | value : Hint f c "v"
  | word {x : String} : f.body.Words x → Hint f c x
  | field {info : FieldInfo} : c.Proxies info → Hint f c info.name
  | accessor {info : FieldInfo} : c.Proxies info → Hint f c info.accessor
  | temporary {hint x : String} {count : Nat} : Hint f c hint →
      x ∈ Naming.candidates (Naming.localVariable hint) count → Hint f c x

-- A variable that is named after a hint and unlike anything in the method.
structure IsTemporary (f : FuncDecl) (c : Catalog) (x : String) : Prop where
  unpredeclared : x ∉ Temporaries.predeclared
  unused : x ∉ f.expand.names
  near : ∃ hint count, f.Hint c hint ∧ x ∈ Naming.candidates (Naming.localVariable hint) count

-- What the result of redirecting a method may name.
def vocabulary (f : FuncDecl) (c : Catalog) (settings : Settings) : Vocabulary where
  word := f.Hint c
  referent x := f.body.RefersTo x ∨ c.Converts settings x
  declared x := x = "_" ∨ f.body.Declares x ∨ f.IsTemporary c x

variable {f g : FuncDecl} {c : Catalog} {methods : MethodTable} {settings : Settings}

theorem vocabulary_serves :
    (f.vocabulary c settings).Serves c settings ((Temporaries.ofMethod f.expand).taken ⊆ ·) where
  blank := .inl rfl
  value := .value
  accessors _ proxies _ := .accessor proxies
  enums info enum proxies is :=
    ⟨.inr ⟨info, enum, proxies, is, .inl rfl⟩, .inr ⟨info, enum, proxies, is, .inr rfl⟩⟩
  temporaries hint temps word sub := by
    obtain ⟨near, free⟩ := Naming.unique_spec (Naming.localVariable hint) temps
    obtain ⟨unpredeclared, unused⟩ := not_or.1 fun taken => free (sub (List.mem_append.2 taken))
    exact ⟨List.subset_cons_of_subset _ sub, .temporary word near,
      .inr (.inr ⟨unpredeclared, unused, hint, _, word, near⟩)⟩

theorem vocabulary_of_redirect (h : f.redirect c methods settings = .ok g) :
    (∀ x, g.body.RefersTo x → f.body.RefersTo x ∨ c.Converts settings x) ∧
      ∀ x, g.body.Declares x → x = "_" ∨ f.body.Declares x ∨ f.IsTemporary c x := by
  have keeps := (Block.keeps_iff (V := f.vocabulary c settings)).2
    ⟨fun _ word => .word word, fun _ refers => .inl refers, fun _ declared => .inr (.inl declared)⟩
  obtain ⟨body, temps, run, rfl⟩ := redirect_iff.1 h
  have kept := (redirectBody_keeps run vocabulary_serves (List.Subset.refl _) keeps).2
  exact (Block.keeps_iff.1 kept).2

-- Without separators in front, no hint starts with one.
theorem Hint.not_separator {hint : String} (h : f.Hint c hint)
    (words : ∀ w, f.body.Words w → ¬Text.StartsWithSeparator w)
    (fields : ∀ info, c.Proxies info → ¬Text.StartsWithSeparator info.name) :
    ¬Text.StartsWithSeparator hint := by
  induction h with
  | value =>
    rintro ⟨_, ⟨⟩, separates⟩
    exact absurd separates (by decide)
  | word h => exact words _ h
  | field proxies => exact fields _ proxies
  | accessor proxies => exact Text.upperCamel_not_separator (fields _ proxies)
  | temporary _ near ih =>
    exact (Naming.candidates_startsLow (Naming.localVariable_startsLow ih) near).not_separator

-- A temporary that hides a type or a function is named after a hint and is no identifier of the
-- method, and what it hides is a type or a function that the method refers to or a conversion. If it
-- starts with a capital, then a word of the method or the name of a field starts with a separator.
theorem captured_near_hint (h : f.redirect c methods settings = .ok g) {x : String}
    (declares : g.body.Declares x) (temporary : ¬f.body.Declares x) (named : x ≠ "_")
    (refers : g.body.RefersTo x) :
    f.IsTemporary c x ∧ (f.body.RefersTo x ∨ c.Converts settings x) ∧
    ((∃ initial ∈ x.toList.head?, initial.isUpper = true) →
      (∃ w, f.body.Words w ∧ Text.StartsWithSeparator w) ∨
        ∃ info, c.Proxies info ∧ Text.StartsWithSeparator info.name) := by
  obtain ⟨referents, declared⟩ := vocabulary_of_redirect h
  have is : f.IsTemporary c x :=
    ((declared x declares).resolve_left named).resolve_left temporary
  refine ⟨is, referents x refers, fun ⟨initial, hi, upper⟩ => ?_⟩
  by_contra none
  obtain ⟨words, fields⟩ := not_or.1 none
  obtain ⟨hint, _, h, near⟩ := is.near
  have separate := h.not_separator (fun w hw sep => words ⟨w, hw, sep⟩)
    fun info proxies sep => fields ⟨info, proxies, sep⟩
  obtain ⟨initial', hi', _, low⟩ :=
    Naming.candidates_startsLow (Naming.localVariable_startsLow separate) near
  obtain rfl := Option.mem_unique hi hi'
  exact Bool.false_ne_true (low.symm.trans upper)

-- The method `func (o *Order) F(_status []int, xs []int) int`. It has `_status, o.status = xs,
-- next()` and returns `len(_status)`.
def capturing : FuncDecl :=
  let name (x : String) : Expr := .ident .nowhere x
  onOrder [⟨"_status", .slice .int⟩, ⟨"xs", .slice .int⟩]
    [.assign .nowhere [name "_status", .select .nowhere (name "o") "status"] .assign
      [name "xs", .callNamed "next" [] .nowhere],
     .ret .nowhere [.callNamed "len" [name "_status"] .nowhere]]

-- The same method with `Status, status := xs, next()`, `_status = Status` and
-- `o.SetStatus(Status(status))`.
def captured : FuncDecl :=
  let name (x : String) : Expr := .ident .nowhere x
  onOrder [⟨"_status", .slice .int⟩, ⟨"xs", .slice .int⟩]
    [.assign .nowhere [name "Status", name "status"] .define
      [name "xs", .callNamed "next" [] .nowhere],
     .assign .nowhere [name "_status"] .assign [name "Status"],
     .expr (.call .nowhere (.select .nowhere (name "o") "SetStatus") []
       [.callNamed "Status" [name "status"] .nowhere]),
     .ret .nowhere [.callNamed "len" [name "_status"] .nowhere]]

theorem redirect_capturing : capturing.redirect .tagged ⟨[]⟩ .standard = .ok captured := by
  rw [redirect_eq, redirectScope_own (e := ⟨.tagged, [.taggedCount, .taggedNote, .taggedStatus,
    .taggedTags]⟩) rfl (by decide) (by decide)]
  with_unfolding_all rfl

theorem declares_captured : captured.body.Declares "Status" :=
  ⟨_, ⟨_, List.mem_cons_self .., .self _⟩, by decide⟩

theorem refersTo_captured : captured.body.RefersTo "Status" := by
  have calls : (Expr.callNamed "Status" [.ident .nowhere "status"] .nowhere).Within
      (.call .nowhere (.select .nowhere (.ident .nowhere "o") "SetStatus") []
        [.callNamed "Status" [.ident .nowhere "status"] .nowhere]) :=
    .operand (by simp [Expr.operands]) (.self _)
  exact .inr ⟨_, ⟨.expr _, ⟨_, by simp [captured, onOrder, Block.statements], .self _⟩, _,
    List.mem_singleton_self _, calls⟩, by decide⟩

theorem unnamed_capturing :
    ¬capturing.body.Declares "Status" ∧ ¬capturing.body.RefersTo "Status" := by
  let others : Vocabulary := ⟨fun _ => True, (· ≠ "Status"), (· ≠ "Status")⟩
  have keeps : ∀ s ∈ capturing.body.statements, s.Keeps others := by
    simp [capturing, onOrder, Block.statements, Expr.callNamed, Expr.ident?, others]
  obtain ⟨_, referents, declared⟩ := Block.keeps_iff.1 keeps
  exact ⟨fun h => declared _ h rfl, fun h => referents _ h rfl⟩

theorem captured_near_hint_status : capturing.redirect .tagged ⟨[]⟩ .standard = .ok captured ∧
    capturing.IsTemporary .tagged "Status" :=
  ⟨redirect_capturing, (captured_near_hint redirect_capturing declares_captured unnamed_capturing.1
    (by decide) refersTo_captured).1⟩

-- The conversion of `o.SetStatus(Status(status))` is hidden by the temporary for `_status`.
theorem conversion_captured :
    let catalog := (Catalog.build .tagged .standard {}).value
    capturing.redirect catalog ⟨[]⟩ .standard = .ok captured ∧
    (captured.body.Declares "Status" ∧ ¬capturing.body.Declares "Status") ∧
    captured.body.RefersTo "Status" ∧ "Status" ∉ capturing.body.names ∧
    catalog.Converts .standard "Status" := by
  rw [Catalog.build_tagged]
  refine ⟨redirect_capturing, ⟨declares_captured, unnamed_capturing.1⟩, refersTo_captured, by decide,
    .taggedStatus, "Status", ⟨rfl, _, List.mem_singleton_self _, ?_⟩, rfl, .inl rfl⟩
  simp

end FuncDecl

end FieldAccess
