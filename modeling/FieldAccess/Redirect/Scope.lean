import FieldAccess.Catalog.Basic

namespace FieldAccess

namespace Catalog

def unvisited (c : Catalog) (visited : List String) : Nat :=
  c.entities.countP (!visited.contains ·.name)

theorem countP_lt_countP {α : Type} {p q : α → Bool} {l : List α} {x : α}
    (imp : ∀ y ∈ l, q y → p y) (mem : x ∈ l) (hp : p x) (hq : ¬q x) :
    l.countP q < l.countP p := by
  induction l with
  | nil => simp at mem
  | cons y l ih =>
    have rest : l.countP q ≤ l.countP p :=
      List.countP_mono_left fun z hz => imp z (List.mem_cons_of_mem y hz)
    rcases List.mem_cons.1 mem with rfl | mem
    · simp only [List.countP_cons, hp, if_true, hq]
      simp
      omega
    · have lt := ih (fun z hz => imp z (List.mem_cons_of_mem y hz)) mem
      have le : (if q y then 1 else 0) ≤ (if p y then 1 else 0) := by
        cases hqy : q y
        · exact Nat.zero_le _
        · simp [imp y (List.mem_cons_self ..) hqy]
      simp only [List.countP_cons]
      omega

theorem name_of_entity? {c : Catalog} {name : String} {e : EntityFields}
    (h : c.entity? name = some e) : e.name = name := by
  simpa using List.find?_some h

theorem mem_of_entity? {c : Catalog} {name : String} {e : EntityFields}
    (h : c.entity? name = some e) : e ∈ c.entities :=
  List.mem_of_find?_eq_some h

theorem unvisited_lt {c : Catalog} {visited : List String} {name : String} {e : EntityFields}
    (h : c.entity? name = some e) (new : visited.contains name = false) :
    c.unvisited (visited ++ [name]) < c.unvisited visited := by
  refine countP_lt_countP (x := e) ?_ (mem_of_entity? h) ?_ ?_
  · intro y _
    simp
    grind
  · simpa [name_of_entity? h] using new
  · simp [name_of_entity? h]

end Catalog

structure RedirectScope where
  catalog : Catalog
  entities : List String
deriving DecidableEq, Repr

namespace RedirectScope

def explore (c : Catalog) (visited : List String) : List String → List String
  | [] => visited
  | next :: stack =>
    if h : visited.contains next then explore c visited stack
    else match he : c.entity? next with
    | none => explore c visited stack
    | some e =>
      have := Catalog.unvisited_lt he (Bool.eq_false_iff.2 h)
      let found := e.relationTargets.filter (!(visited ++ [next]).contains ·)
      explore c (visited ++ [next]) (found.reverse ++ stack)
termination_by stack => (c.unvisited visited, stack.length)

def include? (s : RedirectScope) (entity : String) : Option RedirectScope :=
  if s.catalog.hasEntity entity then
    some { s with entities := explore s.catalog s.entities [entity] }
  else none

def includeIfEntity (s : RedirectScope) (entity : String) : RedirectScope :=
  (s.include? entity).getD s

def of? (catalog : Catalog) (root : String) : Option RedirectScope :=
  include? ⟨catalog, []⟩ root

def contains (s : RedirectScope) (entity : String) : Bool :=
  s.entities.contains entity

def field? (s : RedirectScope) (entity field : String) : Option FieldInfo :=
  if s.contains entity then s.catalog.field? entity field else none

end RedirectScope

end FieldAccess
