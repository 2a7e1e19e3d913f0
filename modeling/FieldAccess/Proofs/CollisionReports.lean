import FieldAccess.Proofs.Repetitions
import FieldAccess.Proofs.WrapperMembers

namespace FieldAccess.Namespace

variable (reserved : List String) (n : Namespace)

-- What is wrong with the name of the wrapper. It stands where its first member stands.
def typeReports : List NameCollision :=
  if n.entity ∈ reserved then
    [⟨n.entity, n.entity, (n.members.head?.map (·.span)).getD .nowhere, .reserved .wrapperType⟩]
  else []

-- What is wrong with the name of a member that stands behind `earlier`. A repeated name is held
-- against the first member that has it.
def memberReports : List Member × Member → List NameCollision
  | (earlier, m) =>
    (if m.name ∈ reserved then [⟨n.entity, m.name, m.span, .reserved m.origin⟩] else []) ++
    if m.name ∈ earlier.map (·.name) then
      (n.members.find? (·.name = m.name)).toList.map fun first =>
        ⟨n.entity, m.name, m.span, .duplicate first.origin m.origin⟩
    else []

variable {reserved n}

theorem memberCollisions_eq {before rest : List Member} {m : Member}
    (all : n.members = before ++ m :: rest) :
    memberCollisions reserved n.entity before m = n.memberReports reserved (before, m) := by
  simp only [memberCollisions, memberReports, List.contains_iff_mem]
  congr 1
  rw [all, List.find?_append]
  cases found : before.find? (·.name = m.name) with
  | none =>
    have new : m.name ∉ before.map (·.name) := by
      simpa using List.find?_eq_none.1 found
    rw [if_neg new]
  | some first =>
    have called : first.name = m.name := by simpa using List.find?_some found
    have old : m.name ∈ before.map (·.name) :=
      called ▸ List.mem_map_of_mem (List.mem_of_find?_eq_some found)
    rw [if_pos old]
    rfl

-- The reports on the rest of the members.
theorem collisionsFrom_eq {before rest : List Member} (all : n.members = before ++ rest) :
    collisionsFrom reserved n.entity before rest =
      (withEarlierAfter before rest).flatMap (n.memberReports reserved) := by
  induction rest generalizing before with
  | nil => rw [collisionsFrom, withEarlierAfter_nil, List.flatMap_nil]
  | cons m rest ih =>
    rw [collisionsFrom, withEarlierAfter_cons, List.flatMap_cons, memberCollisions_eq all,
      ih (by rw [all, List.append_assoc, List.singleton_append])]

theorem collisions_eq :
    n.collisions reserved =
      n.typeReports reserved ++ (withEarlier n.members).flatMap (n.memberReports reserved) := by
  rw [collisions, collisionsFrom_eq (List.nil_append _).symm, withEarlier_eq, typeReports]
  simp only [List.contains_iff_mem]

theorem check_eq_ok_iff {ns : List Namespace} :
    check reserved ns = .ok () ↔ ∀ n ∈ ns, n.collisions reserved = [] := by
  rw [← allCollisions_eq_nil_iff]
  by_cases clear : allCollisions reserved ns = []
  · exact iff_of_true (check_of_eq_nil clear) clear
  · refine iff_of_false (fun h => ?_) clear
    rw [check_of_ne_nil clear] at h
    cases h

theorem check_eq_error_iff {ns : List Namespace} {found : List NameCollision} :
    check reserved ns = .error found ↔
      (∃ n ∈ ns, n.collisions reserved ≠ []) ∧ found = ns.flatMap (·.collisions reserved) := by
  by_cases clear : allCollisions reserved ns = []
  · rw [check_of_eq_nil clear]
    have none := allCollisions_eq_nil_iff.1 clear
    exact ⟨nofun, fun ⟨⟨n, mem, found⟩, _⟩ => absurd (none n mem) found⟩
  · rw [check_of_ne_nil clear, Except.error.injEq]
    have some : ∃ n ∈ ns, n.collisions reserved ≠ [] := by
      by_contra none
      exact clear (allCollisions_eq_nil_iff.2 (by simpa using none))
    exact ⟨fun h => ⟨some, h.symm⟩, fun h => h.2.symm⟩

-- A name space is free of collisions exactly if no name in it is reserved and no two members share
-- one. Otherwise the reserved name of the wrapper comes first, then, member by member, each
-- reserved name and each name that an earlier member has. A check of several name spaces fails
-- exactly if one of them has collisions, with those of all of them in order.
theorem collisions_reported (reserved : List String) :
    (∀ n : Namespace, n.collisions reserved = [] ↔
      n.entity ∉ reserved ∧ (∀ m ∈ n.members, m.name ∉ reserved) ∧
        (n.members.map (·.name)).Nodup) ∧
    (∀ n : Namespace, n.collisions reserved =
      n.typeReports reserved ++ (withEarlier n.members).flatMap (n.memberReports reserved)) ∧
    ∀ ns : List Namespace,
      (check reserved ns = .ok () ↔ ∀ n ∈ ns, n.collisions reserved = []) ∧
      ∀ found, check reserved ns = .error found ↔
        (∃ n ∈ ns, n.collisions reserved ≠ []) ∧ found = ns.flatMap (·.collisions reserved) :=
  ⟨fun _ => collisions_eq_nil_iff, fun _ => collisions_eq,
    fun _ => ⟨check_eq_ok_iff, fun _ => check_eq_error_iff⟩⟩

-- A name that comes three times is reported twice, both times with the first member that has it.
example :
    let n : Namespace := ⟨"Order",
      [⟨"Total", .accessor "total", ⟨1, 1⟩⟩, ⟨"Id", .userMethod, ⟨2, 1⟩⟩,
       ⟨"Total", .userMethod, ⟨3, 1⟩⟩, ⟨"Total", .mutator "t", ⟨4, 1⟩⟩]⟩
    n.collisions ["Id"] =
      [⟨"Order", "Id", ⟨2, 1⟩, .reserved .userMethod⟩,
       ⟨"Order", "Total", ⟨3, 1⟩, .duplicate (.accessor "total") .userMethod⟩,
       ⟨"Order", "Total", ⟨4, 1⟩, .duplicate (.accessor "total") (.mutator "t")⟩] := by
  decide

end FieldAccess.Namespace
