import FieldAccess.Redirect.Method
import Mathlib.Data.List.Basic
import Mathlib.Data.List.Flatten
import Mathlib.Logic.Function.Iterate

namespace FieldAccess

namespace Catalog

-- An entity of the catalog reaches itself, and whatever the relation fields of a reached entity
-- refer to. Names that are not entities reach nothing and are not reached.
inductive Reaches (c : Catalog) (root : String) : String → Prop
  | root : c.hasEntity root → Reaches c root root
  | step : Reaches c root entity → target ∈ c.relationTargets entity → c.hasEntity target →
      Reaches c root target

namespace Reaches

variable {c : Catalog} {root entity target : String}

theorem hasEntity_root (h : c.Reaches root entity) : c.hasEntity root := by
  induction h <;> assumption

-- The first step of a path, as opposed to the last one of `step`.
theorem of_target (hr : c.hasEntity root) (ht : target ∈ c.relationTargets root)
    (h : c.Reaches target entity) : c.Reaches root entity := by
  induction h with
  | root h => exact .step (.root hr) ht h
  | step _ ht h ih => exact .step ih ht h

end Reaches

theorem relationTargets_eq {c : Catalog} {name : String} {e : EntityFields}
    (h : c.entity? name = some e) : c.relationTargets name = e.relationTargets := by
  simp [relationTargets, h]

theorem not_hasEntity {c : Catalog} {name : String} (h : c.entity? name = none) :
    ¬c.hasEntity name := by
  simp [hasEntity, h]

theorem hasEntity_of_field? {c : Catalog} {entity member : String} {info : FieldInfo}
    (h : c.field? entity member = some info) : c.hasEntity entity := by
  obtain ⟨_, he, _⟩ := Option.bind_eq_some_iff.1 h
  simp [hasEntity, he]

variable {visited visited' : List String} {entities : List EntityFields} {e : EntityFields}

end Catalog

namespace RedirectScope

open Catalog

variable {c : Catalog} {visited stack : List String} {entity : String}

theorem explore_nil (c : Catalog) (visited : List String) : explore c visited [] = visited := by
  rw [explore]

theorem explore_visited {next : String} (h : visited.contains next) :
    explore c visited (next :: stack) = explore c visited stack := by
  rw [explore, dif_pos h]

theorem explore_unknown {next : String} (h : c.entity? next = none) :
    explore c visited (next :: stack) = explore c visited stack := by
  rw [explore]
  split
  · rfl
  · split
    · rfl
    · simp_all

theorem explore_entity {next : String} {e : EntityFields} (new : visited.contains next = false)
    (h : c.entity? next = some e) :
    explore c visited (next :: stack) = explore c (visited ++ [next])
      ((e.relationTargets.filter (!(visited ++ [next]).contains ·)).reverse ++ stack) := by
  rw [explore, dif_neg (Bool.eq_false_iff.1 new)]
  split
  · simp_all
  · simp_all

-- Nothing is found that neither was visited before nor is reached from the stack.
theorem explore_sound (h : entity ∈ explore c visited stack) :
    entity ∈ visited ∨ ∃ root ∈ stack, c.Reaches root entity := by
  induction visited, stack using explore.induct c with
  | case1 visited => exact .inl (explore_nil c visited ▸ h)
  | case2 visited next stack hv ih =>
    rw [explore_visited hv] at h
    have := ih h
    grind
  | case3 visited next stack hv hn ih =>
    rw [explore_unknown hn] at h
    have := ih h
    grind
  | case4 visited next stack hv e he lt found ih =>
    rw [explore_entity (Bool.eq_false_iff.2 hv) he] at h
    have hasNext : c.hasEntity next := by simp [hasEntity, he]
    rcases ih h with h | ⟨root, hr, h⟩
    · rcases List.mem_append.1 h with h | h
      · exact .inl h
      · obtain rfl := List.mem_singleton.1 h
        exact .inr ⟨entity, by simp, .root hasNext⟩
    · rcases List.mem_append.1 hr with hr | hr
      · have ht : root ∈ e.relationTargets := (List.mem_filter.1 (List.mem_reverse.1 hr)).1
        exact .inr ⟨next, by simp, .of_target hasNext (relationTargets_eq he ▸ ht) h⟩
      · exact .inr ⟨root, by simp [hr], h⟩

-- The relation targets of visited entities are visited or on the stack.
def Pending (c : Catalog) (visited stack : List String) : Prop :=
  ∀ entity ∈ visited, ∀ target ∈ c.relationTargets entity, c.hasEntity target →
    target ∈ visited ∨ target ∈ stack

-- Nothing is lost: what was visited or is on the stack is found, and what is found is closed.
theorem explore_complete (h : Pending c visited stack) :
    (∀ entity ∈ visited, entity ∈ explore c visited stack) ∧
    (∀ entity ∈ stack, c.hasEntity entity → entity ∈ explore c visited stack) ∧
    Pending c (explore c visited stack) [] := by
  induction visited, stack using explore.induct c with
  | case1 visited => simpa [explore_nil] using h
  | case2 visited next stack hv ih =>
    rw [explore_visited hv]
    obtain ⟨h₁, h₂, h₃⟩ := ih fun a ha t ht e => by
      rcases h a ha t ht e with h | h
      · exact .inl h
      · rcases List.mem_cons.1 h with rfl | h
        · exact .inl (List.contains_iff_mem.1 hv)
        · exact .inr h
    refine ⟨h₁, fun a ha e => ?_, h₃⟩
    rcases List.mem_cons.1 ha with rfl | ha
    · exact h₁ _ (List.contains_iff_mem.1 hv)
    · exact h₂ a ha e
  | case3 visited next stack hv hn ih =>
    have hn' := not_hasEntity hn
    rw [explore_unknown hn]
    obtain ⟨h₁, h₂, h₃⟩ := ih fun a ha t ht e => by
      rcases h a ha t ht e with h | h
      · exact .inl h
      · rcases List.mem_cons.1 h with rfl | h
        · exact absurd e hn'
        · exact .inr h
    refine ⟨h₁, fun a ha e => ?_, h₃⟩
    rcases List.mem_cons.1 ha with rfl | ha
    · exact absurd e hn'
    · exact h₂ a ha e
  | case4 visited next stack hv e he lt found ih =>
    rw [explore_entity (Bool.eq_false_iff.2 hv) he]
    obtain ⟨h₁, h₂, h₃⟩ := ih fun a ha t ht et => by
      by_cases hm : t ∈ visited ++ [next]
      · exact .inl hm
      · rcases List.mem_append.1 ha with ha | ha
        · rcases h a ha t ht et with h | h
          · exact absurd (List.mem_append_left _ h) hm
          · have : t ≠ next := by rintro rfl; simp at hm
            exact .inr (List.mem_append_right _ (by simpa [this] using h))
        · obtain rfl := List.mem_singleton.1 ha
          refine .inr (List.mem_append_left _ (List.mem_reverse.2 (List.mem_filter.2 ?_)))
          exact ⟨relationTargets_eq he ▸ ht, by simpa using hm⟩
    refine ⟨fun a ha => h₁ a (List.mem_append_left _ ha), fun a ha ea => ?_, h₃⟩
    rcases List.mem_cons.1 ha with rfl | ha
    · exact h₁ _ (by simp)
    · exact h₂ a (List.mem_append_right _ ha) ea

-- A scope that holds whatever its entities' relation fields refer to.
def Closed (s : RedirectScope) : Prop :=
  Pending s.catalog s.entities []

theorem Closed.mem_of_reaches {s : RedirectScope} {root : String} (h : s.Closed)
    (hr : root ∈ s.entities) (hp : s.catalog.Reaches root entity) : entity ∈ s.entities := by
  induction hp with
  | root _ => exact hr
  | step _ ht e ih => exact (h _ ih _ ht e).resolve_right (by simp)

@[simp]
theorem includeIfEntity_catalog (s : RedirectScope) (name : String) :
    (s.includeIfEntity name).catalog = s.catalog := by
  simp only [includeIfEntity, include?]
  split <;> rfl

theorem Closed.includeIfEntity {s : RedirectScope} (h : s.Closed) (name : String) :
    (s.includeIfEntity name).Closed := by
  simp only [RedirectScope.includeIfEntity, include?]
  split
  case isTrue =>
    have := @explore_complete s.catalog s.entities [name]
      fun a ha t ht e => .inl ((h a ha t ht e).resolve_right (by simp))
    exact this.2.2
  case isFalse => exact h

-- Including a name adds what the name reaches, and nothing else.
theorem Closed.mem_includeIfEntity {s : RedirectScope} {name : String} (h : s.Closed) :
    entity ∈ (s.includeIfEntity name).entities ↔
      entity ∈ s.entities ∨ s.catalog.Reaches name entity := by
  have closed := h.includeIfEntity name
  revert closed
  simp only [RedirectScope.includeIfEntity, include?]
  split
  case isFalse hn =>
    intro _
    exact ⟨.inl, fun h => h.resolve_right fun p => hn p.hasEntity_root⟩
  case isTrue hn =>
    intro closed
    obtain ⟨old, new, _⟩ := @explore_complete s.catalog s.entities [name]
      fun a ha t ht e => .inl ((h a ha t ht e).resolve_right (by simp))
    constructor
    · intro hm
      simpa using explore_sound hm
    · rintro (hm | hp)
      · exact old _ hm
      · exact closed.mem_of_reaches (new name (by simp) hn) hp

theorem Closed.foldl_includeIfEntity {s : RedirectScope} (h : s.Closed) (names : List String) :
    (names.foldl (·.includeIfEntity ·) s).catalog = s.catalog ∧
    ∀ entity, entity ∈ (names.foldl (·.includeIfEntity ·) s).entities ↔
      entity ∈ s.entities ∨ ∃ name ∈ names, s.catalog.Reaches name entity := by
  induction names generalizing s with
  | nil => simp
  | cons name rest ih =>
    obtain ⟨hc, hm⟩ := ih (h.includeIfEntity name)
    simp only [List.foldl_cons]
    refine ⟨by simp [hc], fun entity => ?_⟩
    rw [hm entity, h.mem_includeIfEntity]
    simp [or_assoc]

-- An entity whose relations lead nowhere else is a scope of its own.
theorem of?_own {root : String} {e : EntityFields} (known : c.entity? root = some e)
    (own : ∀ target ∈ e.relationTargets, target = root) : of? c root = some ⟨c, [root]⟩ := by
  have found : e.relationTargets.filter (!([] ++ [root]).contains ·) = [] :=
    List.filter_eq_nil_iff.2 fun target mem => by simp [own target mem]
  have explored : explore c [] [root] = [root] := by
    rw [explore_entity rfl known, found]
    exact explore_nil ..
  rw [of?, include?, if_pos (show c.hasEntity root by rw [Catalog.hasEntity, known]; rfl), explored]

theorem includeIfEntity_visited {s : RedirectScope} {entity : String} (h : entity ∈ s.entities) :
    s.includeIfEntity entity = s := by
  rw [includeIfEntity, include?, explore_visited (List.contains_iff_mem.2 h), explore_nil]
  split <;> rfl

theorem include?_unknown {s : RedirectScope} {name : String}
    (unknown : s.catalog.hasEntity name = false) : s.include? name = none :=
  if_neg (Bool.eq_false_iff.1 unknown)

theorem includeIfEntity_unknown {s : RedirectScope} {name : String}
    (unknown : s.catalog.hasEntity name = false) : s.includeIfEntity name = s := by
  rw [includeIfEntity, include?_unknown unknown, Option.getD_none]

theorem of?_eq_some {root : String} {s : RedirectScope} (h : of? c root = some s) :
    s = (⟨c, []⟩ : RedirectScope).includeIfEntity root := by
  simp [includeIfEntity, show include? ⟨c, []⟩ root = some s from h]

-- One round of the worklist, on what was visited and on the stack.
def round (c : Catalog) : List String × List String → List String × List String
  | (visited, []) => (visited, [])
  | (visited, next :: stack) =>
    if visited.contains next then (visited, stack)
    else match c.entity? next with
    | none => (visited, stack)
    | some e => (visited ++ [next],
        (e.relationTargets.filter (!(visited ++ [next]).contains ·)).reverse ++ stack)

variable {s : RedirectScope} {name : String}

end RedirectScope

namespace FuncDecl

variable (f : FuncDecl) (catalog : Catalog) (methods : MethodTable)

-- The scope in which `redirect` works.
def redirectScope : Except RedirectError RedirectScope := do
  let scope ← f.receiverScope catalog
  let types := TypeContext.typesInMethod catalog methods f.expand
  return (types.filterMap (·.namedTarget?)).foldl (·.includeIfEntity ·) scope

theorem redirect_eq (settings : Settings) :
    f.redirect catalog methods settings = (f.redirectScope catalog methods).bind
      (f.expand.redirectIn settings (TypeContext.ofMethod catalog methods f.expand)) := by
  simp only [redirect, redirectScope]
  cases f.receiverScope catalog <;> rfl

-- A method of an entity has a scope.
theorem exists_redirectScope {f : FuncDecl} {catalog : Catalog} {methods : MethodTable}
    {entity : String} (own : f.receiverEntity? = some entity) (known : catalog.hasEntity entity) :
    ∃ scope, f.redirectScope catalog methods = .ok scope := by
  rw [redirectScope, receiverScope, own, Option.getD_some, RedirectScope.of?,
    RedirectScope.include?, if_pos known]
  exact ⟨_, rfl⟩

-- If a method binds no names of other entities, and the relations of its entity lead nowhere else, then
-- its scope is that entity alone.
theorem redirectScope_alone {f : FuncDecl} {catalog : Catalog} {methods : MethodTable}
    {e : EntityFields} (known : catalog.entity? (f.receiverEntity?.getD "") = some e)
    (within : ∀ target ∈ e.relationTargets, target = f.receiverEntity?.getD "")
    (own : ∀ name ∈ (TypeContext.typesInMethod catalog methods f.expand).filterMap (·.namedTarget?),
      catalog.hasEntity name → name = f.receiverEntity?.getD "") :
    f.redirectScope catalog methods = .ok ⟨catalog, [f.receiverEntity?.getD ""]⟩ := by
  rw [redirectScope, receiverScope, RedirectScope.of?_own known within]
  refine congrArg Except.ok ?_
  generalize (TypeContext.typesInMethod catalog methods f.expand).filterMap (·.namedTarget?) = names
    at own ⊢
  induction names with
  | nil => rfl
  | cons name rest ih =>
    obtain ⟨same, own⟩ := List.forall_mem_cons.1 own
    rw [List.foldl_cons]
    by_cases entity : catalog.hasEntity name
    · rw [same entity, RedirectScope.includeIfEntity_visited (List.mem_singleton_self _), ih own]
    · rw [RedirectScope.includeIfEntity_unknown (Bool.eq_false_iff.2 entity), ih own]

theorem redirectScope_own {f : FuncDecl} {catalog : Catalog} {methods : MethodTable}
    {e : EntityFields} (known : catalog.entity? (f.receiverEntity?.getD "") = some e)
    (within : ∀ target ∈ e.relationTargets, target = f.receiverEntity?.getD "")
    (own : ∀ entity ∈ (TypeContext.typesInMethod catalog methods f.expand).filterMap (·.namedTarget?),
      entity = f.receiverEntity?.getD "") :
    f.redirectScope catalog methods = .ok ⟨catalog, [f.receiverEntity?.getD ""]⟩ :=
  redirectScope_alone known within fun name mem _ => own name mem

theorem redirectScope_isolated {f : FuncDecl} {catalog : Catalog} {methods : MethodTable}
    {e : EntityFields} (known : catalog.entity? (f.receiverEntity?.getD "") = some e)
    (alone : e.relationTargets = [])
    (own : ∀ entity ∈ (TypeContext.typesInMethod catalog methods f.expand).filterMap (·.namedTarget?),
      entity = f.receiverEntity?.getD "") :
    f.redirectScope catalog methods = .ok ⟨catalog, [f.receiverEntity?.getD ""]⟩ :=
  redirectScope_own known (by simp [alone]) own

-- The entities from which the scope is reached: that of the receiver, and those that the type of a
-- bound name is or points to. A receiver of no named type counts as one of the empty name.
def IsRoot (entity : String) : Prop :=
  entity = f.receiverEntity?.getD "" ∨
    ∃ type ∈ TypeContext.typesInMethod catalog methods f.expand, type.namedTarget? = some entity

-- The entities whose fields the method may touch.
def Touches (entity : String) : Prop :=
  ∃ root, f.IsRoot catalog methods root ∧ catalog.Reaches root entity

variable {f catalog methods}

theorem mem_redirectScope {scope : RedirectScope}
    (h : f.redirectScope catalog methods = .ok scope) :
    scope.catalog = catalog ∧
    ∀ entity, entity ∈ scope.entities ↔ f.Touches catalog methods entity := by
  simp only [redirectScope, receiverScope] at h
  split at h
  case h_2 => cases h
  case h_1 s hs =>
    obtain rfl : _ = scope := Except.ok.inj h
    have empty : (⟨catalog, []⟩ : RedirectScope).Closed := by
      intro entity h
      cases h
    obtain rfl := RedirectScope.of?_eq_some hs
    obtain ⟨hc, hm⟩ := (empty.includeIfEntity (f.receiverEntity?.getD "")).foldl_includeIfEntity
      ((TypeContext.typesInMethod catalog methods f.expand).filterMap (·.namedTarget?))
    refine ⟨by simpa using hc, fun entity => ?_⟩
    rw [hm, empty.mem_includeIfEntity]
    simp [Touches, IsRoot, or_and_right, exists_or]

end FuncDecl

end FieldAccess
