import FieldAccess.Eval.Expr
import FieldAccess.Proofs.Allocation
import FieldAccess.Proofs.Machines
import FieldAccess.Proofs.Runs

namespace FieldAccess

-- The kinds of fields that a record keeps as they are.
inductive BasicKind where
  | int
  | string
  | bool

namespace BasicKind

def type : BasicKind → TypeExpr
  | int => .int
  | string => .string
  | bool => .bool

def getter : BasicKind → String
  | int => "GetInt"
  | string => "GetString"
  | bool => "GetBool"

def holds : BasicKind → Value → Bool
  | int, .int _ => true
  | string, .str _ => true
  | bool, .bool _ => true
  | _, _ => false

theorem isAtom_of_holds {k : BasicKind} {v : Value} (h : k.holds v = true) : v.isAtom = true := by
  cases k <;> cases v <;> first | contradiction | rfl

end BasicKind

-- A field that is read with the getter of its kind and written with a plain setter.
structure FieldInfo.Stores (info : FieldInfo) (k : BasicKind) : Prop where
  access : ∃ representation, info.access = .proxied (.primitive representation k.getter)
  declared : info.declaredType? = some k.type

-- A field of an entity that its records store as it is.
structure Catalog.Stores (c : Catalog) (entity name : String) (info : FieldInfo) (k : BasicKind) :
    Prop where
  field : c.field? entity name = some info
  stores : info.Stores k

-- Two runs: on plain objects with the one program, and on wrappers with the other.
structure Sides where
  catalog : Catalog
  source : Program
  target : Program
  twins : List Twin
  -- The objects that values may refer to.
  loose : List Twin
  -- The variable that holds an object even if no value refers to one.
  receiver : Option String
  call : CallHandler

namespace Twin

variable (c : Catalog) (twins : List Twin) (maps : List (Nat × Nat)) (m m' : Machine) (t : Twin)

-- What is needed to read and write a record through its wrapper.
structure Wraps : Prop where
  wrapper : t.wrapper < m'.objects.size
  record : t.record < m'.records.size
  type : (m'.object t.wrapper).type = t.entity
  holds : (m'.object t.wrapper).fields.get? recordField = some (.record t.record)

-- The record stores what the plain object has.
structure Mirrored : Prop extends Wraps m' t where
  object : t.object < m.objects.size
  data : ∀ {name info k}, c.Stores t.entity name info k →
    Option.Rel (Value.Alike twins maps) ((m.object t.object).fields.get? name)
      ((m'.record t.record).data.get? info.key)

-- The fields of the plain object hold values of their kinds.
def InKind : Prop :=
  ∀ {name info k}, c.Stores t.entity name info k →
    ∃ v, (m.object t.object).fields.get? name = some v ∧ k.holds v = true

end Twin

namespace Sides

-- The objects that a variable may refer to.
def seen (S : Sides) (x : String) : List Twin :=
  if S.receiver = some x then S.twins else S.loose

-- Accessors and mutators do what they are for.
structure Serves (S : Sides) : Prop where
  read : ∀ {t name info k m' v}, t ∈ S.twins → S.catalog.Stores t.entity name info k →
    t.Wraps m' → (m'.record t.record).data.get? info.key = some v → k.holds v = true →
    Exec.callMethod S.target S.call (.object t.wrapper) info.accessor [] m' = .ok [v] m'
  write : ∀ {t name info k m' v}, t ∈ S.twins → S.catalog.Stores t.entity name info k →
    t.Wraps m' →
    Exec.callMethod S.target S.call (.object t.wrapper) info.mutator [v] m' =
      .ok [] (m'.store t.record info.key v)

structure Sound (S : Sides) : Prop extends Serves S where
  apart : Twin.Apart S.twins
  loose : S.loose = [] ∨ S.loose = S.twins
  -- Different fields of an entity are stored under different keys.
  keys : ∀ {t name₁ info₁ k₁ name₂ info₂ k₂}, t ∈ S.twins →
    S.catalog.Stores t.entity name₁ info₁ k₁ → S.catalog.Stores t.entity name₂ info₂ k₂ →
    info₁.key = info₂.key → name₁ = name₂
  zero : ∀ type, S.source.zero type = S.target.zero type

theorem Sound.loose_subset {S : Sides} (h : S.Sound) : S.loose ⊆ S.twins := by
  rcases h.loose with e | e <;> simp [e]

theorem Sound.seen_subset {S : Sides} (h : S.Sound) (x : String) : S.seen x ⊆ S.twins := by
  rw [seen]
  split
  · exact List.Subset.refl _
  · exact h.loose_subset

theorem Sound.loose_apart {S : Sides} (h : S.Sound) : Twin.Apart S.loose :=
  fun t ht u hu => h.apart t (h.loose_subset ht) u (h.loose_subset hu)

end Sides

-- The value of a variable of the frame or the package.
def Frame.var? (f : Frame) (m : Machine) (x : String) : Option Value :=
  (f.get? x).or (m.globals.get? x)

theorem Machine.Grows.var? {m m₁ : Machine} (h : m.Grows m₁) (f : Frame) (x : String) :
    f.var? m₁ x = f.var? m x := by
  rw [Frame.var?, Frame.var?, h.globals]

-- What two evaluations have in common: the variables that they name, the frames, and the machine
-- in which the run on plain objects ends.
structure View where
  sides : Sides
  reads : Bool
  names : List String
  source : Frame
  target : Frame
  machine : Machine

namespace View

-- The same value, but for addresses.
abbrev Alike (w : View) (maps : List (Nat × Nat)) : Value → Value → Prop :=
  Value.Alike w.sides.loose maps

-- What the evaluation on wrappers can rely on.
structure Ready (w : View) (maps : List (Nat × Nat)) (m' : Machine) : Prop where
  tables : MapsAlike w.sides.loose maps w.machine m'
  vars : ∀ x ∈ w.names, ∀ v, w.source.var? w.machine x = some v →
    ∃ v', w.target.var? m' x = some v' ∧ Value.Alike (w.sides.seen x) maps v v'
  mirrored : w.reads = true → ∀ t ∈ w.sides.twins,
    t.Mirrored w.sides.catalog w.sides.loose maps w.machine m'
  inKind : w.reads = true → ∀ t ∈ w.sides.twins, t.InKind w.sides.catalog w.machine

end View

section

variable {w : View} {m' m'₁ : Machine} {maps maps' ext ext' : List (Nat × Nat)} {t : Twin}

theorem Twin.Wraps.grow (h : t.Wraps m') (grows : m'.Grows m'₁) : t.Wraps m'₁ where
  wrapper := Nat.lt_of_lt_of_le h.wrapper grows.objectsLe
  record := by
    rw [grows.records]
    exact h.record
  type := by
    rw [grows.object _ h.wrapper]
    exact h.type
  holds := by
    rw [grows.object _ h.wrapper]
    exact h.holds

theorem Twin.Mirrored.grow {c : Catalog} {twins : List Twin} {m m₁ : Machine}
    (h : t.Mirrored c twins maps m m') (left : m.Grows m₁) (right : m'.Grows m'₁)
    (sub : maps ⊆ maps') : t.Mirrored c twins maps' m₁ m'₁ where
  toWraps := h.toWraps.grow right
  object := Nat.lt_of_lt_of_le h.object left.objectsLe
  data stores := by
    rw [right.record, left.object _ h.object]
    exact rel_imp (fun _ _ => Value.Alike.mono (List.Subset.refl _) sub) (h.data stores)

theorem View.Ready.grow (h : w.Ready maps m') (grows : m'.Grows m'₁) (sub : maps ⊆ maps')
    (tables : MapsAlike w.sides.loose maps' w.machine m'₁) : w.Ready maps' m'₁ where
  tables := tables
  vars x hx v hv := by
    obtain ⟨v', hv', alike⟩ := h.vars x hx v hv
    exact ⟨v', (grows.var? _ _).trans hv', alike.mono (List.Subset.refl _) sub⟩
  mirrored reads t ht := (h.mirrored reads t ht).grow (.refl _) grows sub
  inKind := h.inKind

theorem Fresh.nil {start stop start' : Nat} : Fresh [] start stop start' :=
  ⟨by simp, by simp⟩

theorem Fresh.append {lo mid hi lo' mid' : Nat} (h : Fresh ext lo mid lo')
    (h' : Fresh ext' mid hi mid') (le : lo ≤ mid) (le' : mid ≤ hi) (le'' : lo' ≤ mid') :
    Fresh (ext' ++ ext) lo hi lo' where
  source p hp := by
    rcases List.mem_append.1 hp with hp | hp
    · have := h'.source p hp
      omega
    · have := h.source p hp
      omega
  target p hp := by
    rcases List.mem_append.1 hp with hp | hp
    · exact Nat.le_trans le'' (h'.target p hp)
    · exact h.target p hp

theorem Below.append {lo hi lo' : Nat} (h : Below maps lo) (fresh : Fresh ext lo hi lo')
    (le : lo ≤ hi) : Below (ext ++ maps) hi := by
  intro p hp
  rcases List.mem_append.1 hp with hp | hp
  · exact (fresh.source p hp).2
  · exact Nat.lt_of_lt_of_le (h p hp) le

end

namespace Exec

-- The evaluation on wrappers succeeds, and the maps that it allocates are paired with ones from a
-- range of addresses.
def Yields {β : Type} (w : View) (maps : List (Nat × Nat)) (start stop : Nat) (x' : Exec β)
    (m' : Machine) (R : List (Nat × Nat) → β → Prop) : Prop :=
  ∃ b m'₁ ext, x' m' = .ok b m'₁ ∧ m'.Grows m'₁ ∧ Fresh ext start stop m'.maps.size ∧
    MapsAlike w.sides.loose (ext ++ maps) w.machine m'₁ ∧ R (ext ++ maps) b

-- Whenever the evaluation on plain objects succeeds, so does the one on wrappers, and the results
-- correspond.
structure Mimics {α β : Type} (w : View) (base : List (Nat × Nat)) (x : Exec α) (x' : Exec β)
    (R : List (Nat × Nat) → α → β → Prop) : Prop where
  run : ∀ {lo hi a maps m'}, x lo = .ok a hi → hi.Grows w.machine → base ⊆ maps →
    Below maps lo.maps.size → w.Ready maps m' →
    Yields w maps lo.maps.size hi.maps.size x' m' (R · a)

namespace Mimics

variable {α β γ δ : Type} {w : View} {base base' : List (Nat × Nat)} {x : Exec α} {x' : Exec β}
  {R R' : List (Nat × Nat) → α → β → Prop}

theorem pure {a : α} {b : β} (h : ∀ maps, base ⊆ maps → R maps a b) :
    Mimics w base (pure a) (pure b) R where
  run hx _ sub _ ready := by
    obtain ⟨rfl, rfl⟩ := ok_pure.1 hx
    exact ⟨b, _, [], rfl, .refl _, .nil, ready.tables, h _ sub⟩

theorem bind {f : α → Exec γ} {f' : β → Exec δ} {Q : List (Nat × Nat) → γ → δ → Prop}
    (allocates : OnlyAllocates x) (allocates' : ∀ a, OnlyAllocates (f a))
    (hx : Mimics w base x x' R)
    (hf : ∀ maps a b, base ⊆ maps → PairedMaps maps → R maps a b →
      Mimics w maps (f a) (f' b) Q) :
    Mimics w base (x >>= f) (x' >>= f') Q where
  run {lo hi c maps m'} h grows sub below ready := by
    obtain ⟨a, mid, h₁, h₂⟩ := ok_bind.1 h
    have g₁ := allocates.grows h₁
    have g₂ := (allocates' a).grows h₂
    obtain ⟨b, m'₁, ext, run₁, grows₁, fresh₁, tables₁, rel⟩ :=
      hx.run h₁ (g₂.trans grows) sub below ready
    have sub₁ := List.subset_append_right ext maps
    obtain ⟨d, m'₂, ext', run₂, grows₂, fresh₂, tables₂, rel₂⟩ :=
      (hf _ a b (List.Subset.trans sub sub₁) tables₁.paired rel).run h₂ grows (List.Subset.refl _)
        (below.append fresh₁ g₁.mapsLe) (ready.grow grows₁ sub₁ tables₁)
    rw [← List.append_assoc] at tables₂ rel₂
    exact ⟨d, m'₂, ext' ++ ext, ok_bind.2 ⟨b, m'₁, run₁, run₂⟩, grows₁.trans grows₂,
      fresh₁.append fresh₂ g₁.mapsLe g₂.mapsLe grows₁.mapsLe, tables₂, rel₂⟩

theorem mono (h : Mimics w base x x' R) (sub : base ⊆ base')
    (imp : ∀ maps a b, base' ⊆ maps → R maps a b → R' maps a b) : Mimics w base' x x' R' where
  run hx grows sub' below ready := by
    obtain ⟨b, m'₁, ext, run, grows', fresh, tables, rel⟩ :=
      h.run hx grows (List.Subset.trans sub sub') below ready
    exact ⟨b, m'₁, ext, run, grows', fresh, tables,
      imp _ _ _ (List.Subset.trans sub' (List.subset_append_right ..)) rel⟩

-- What cannot succeed is mimicked by anything.
theorem of_fails (h : ∀ lo a hi, x lo ≠ .ok a hi) : Mimics w base x x' R where
  run hx := absurd hx (h _ _ _)

theorem fail (fault : ExecFault) : Mimics w base (fail fault) x' R :=
  of_fails fun _ _ _ h => ok_fail.1 h

theorem orFail {fault fault' : ExecFault} {a? : Option α} {b? : Option β}
    (h : ∀ a, a? = some a → ∃ b, b? = some b ∧ ∀ maps, base ⊆ maps → R maps a b) :
    Mimics w base (orFail fault a?) (orFail fault' b?) R := by
  cases a? with
  | none => exact of_fails fun _ _ _ h => by simp [ok_orFail] at h
  | some a =>
    obtain ⟨b, hb, rel⟩ := h a rfl
    subst hb
    exact pure rel

theorem ofExcept {r : Except ExecFault α} {r' : Except ExecFault β}
    (h : ∀ a, r = .ok a → ∃ b, r' = .ok b ∧ ∀ maps, base ⊆ maps → R maps a b) :
    Mimics w base (ofExcept r) (ofExcept r') R := by
  cases r with
  | error fault => exact of_fails fun _ _ _ h => by simp [ok_ofExcept] at h
  | ok a =>
    obtain ⟨b, hb, rel⟩ := h a rfl
    subst hb
    exact pure rel

-- Reading a map that both sides have.
theorem map {a b : Nat} (mem : (a, b) ∈ base) {f : Table MapKey → α} {f' : Table MapKey → β}
    (h : ∀ maps t t', base ⊆ maps → Table.Alike (w.Alike maps) t t' → R maps (f t) (f' t')) :
    Mimics w base (do return f ((← get).map a)) (do return f' ((← get).map b)) R where
  run {lo hi _ maps m'} hx grows sub below ready := by
    simp only [ok_bind, ok_get, ok_pure] at hx
    obtain ⟨_, _, ⟨rfl, rfl⟩, rfl, rfl⟩ := hx
    have alike := ready.tables.alike _ (sub mem)
    rw [grows.map a (below _ (sub mem))] at alike
    exact ⟨_, m', [], rfl, .refl _, .nil, ready.tables, h _ _ _ sub alike⟩

end Mimics

end Exec

end FieldAccess
