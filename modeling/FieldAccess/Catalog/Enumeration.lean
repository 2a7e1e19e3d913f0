import FieldAccess.Naming
import FieldAccess.Schema.Basic

namespace FieldAccess

structure EnumEntry where
  name : String
  -- The labels; the ordinal of a label is its place in the list.
  labels : List String
  constNames : List String
deriving DecidableEq, Repr

namespace EnumEntry

-- The ordinal of a label; of a label that occurs twice, the last.
def ordinalOf? (e : EnumEntry) (label : String) : Option Nat :=
  e.labels.zipIdx.reverse.lookup label

def labelOf? (e : EnumEntry) (ordinal : Int) : Option String :=
  ordinal.toNat?.bind (e.labels[·]?)

def sameOptions (e : EnumEntry) (labels constNames : List String) : Bool :=
  e.labels = labels && e.constNames = constNames

end EnumEntry

def EnumSpec.wantedConsts (spec : EnumSpec) : List String :=
  spec.constNames.getD (spec.labels.map Text.upperCamel)

inductive Registration where
  | new (name : String)
  | shared (name : String)
  | renamed (requested : String) (assigned : String)
deriving DecidableEq, Repr

def Registration.name : Registration → String
  | new name | shared name | renamed _ name => name

structure EnumTable where
  entries : List EnumEntry := []
  owners : List ((String × String) × String) := []
  taken : List String := []
  renamedConsts : List (String × String) := []
deriving DecidableEq, Repr

namespace EnumTable

def get? (t : EnumTable) (name : String) : Option EnumEntry :=
  t.entries.find? (·.name = name)

def owner? (t : EnumTable) (entity field : String) : Option String :=
  t.owners.lookup (entity, field)

def entryFor? (t : EnumTable) (entity field : String) : Option EnumEntry :=
  (t.owner? entity field).bind t.get?

def reserve (t : EnumTable) (name : String) : EnumTable :=
  { t with taken := name :: t.taken }

-- Whether an enumeration with these options can go by the name: it is an entry with the same
-- options, or it is free.
def admits (t : EnumTable) (labels constNames : List String) (name : String) : Bool :=
  match t.get? name with
  | some entry => entry.sameOptions labels constNames
  | none => !t.taken.contains name

def assignedName (t : EnumTable) (requested : String) (labels constNames : List String) : String :=
  let candidates := Naming.candidates requested (t.entries.length + t.taken.length)
  (candidates.find? (t.admits labels constNames)).getD requested

-- Gives each constant the first free name of its sequence; each counts as taken for the next.
def addConsts (t : EnumTable) : List String → List String × EnumTable
  | [] => ([], t)
  | name :: rest =>
    let assigned := Naming.unique name t.taken
    let renamed := if assigned = name then [] else [(name, assigned)]
    let t := { t with taken := assigned :: t.taken, renamedConsts := t.renamedConsts ++ renamed }
    let (names, t) := addConsts t rest
    (assigned :: names, t)

def addEntry (t : EnumTable) (name : String) (labels constNames : List String) : EnumTable :=
  let (constNames, t) := { t with taken := name :: t.taken }.addConsts constNames
  { t with entries := t.entries ++ [⟨name, labels, constNames⟩] }

-- Registers the enumeration of a field. A field that is registered again keeps the entry it owns.
def register (t : EnumTable) (entity field : String) (spec : EnumSpec) : Registration × EnumTable :=
  match t.owner? entity field with
  | some name => (.shared name, t)
  | none =>
    let constNames := spec.wantedConsts
    let name := t.assignedName spec.typeName spec.labels constNames
    let own (t : EnumTable) : EnumTable := { t with owners := ((entity, field), name) :: t.owners }
    if (t.get? name).isSome then (.shared name, own t)
    else
      let registration :=
        if name = spec.typeName then .new name else .renamed spec.typeName name
      (registration, own (t.addEntry name spec.labels constNames))

end EnumTable

end FieldAccess
