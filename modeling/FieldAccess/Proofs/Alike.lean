import FieldAccess.Eval.Operator
import FieldAccess.Eval.Program
import FieldAccess.Proofs.Success
import Mathlib.Data.List.Forall2

namespace FieldAccess

-- A plain object, and the wrapper that stands for it together with its record.
structure Twin where
  entity : String
  object : Nat
  wrapper : Nat
  record : Nat

-- Different twins have nothing in common.
def Twin.Apart (twins : List Twin) : Prop :=
  ∀ t ∈ twins, ∀ u ∈ twins,
    t.object = u.object ∨ t.wrapper = u.wrapper ∨ t.record = u.record → t = u

-- Each address belongs to one pair.
def PairedMaps (maps : List (Nat × Nat)) : Prop :=
  ∀ p ∈ maps, ∀ q ∈ maps, p.1 = q.1 ↔ p.2 = q.2

namespace Value

section

variable (twins : List Twin) (maps : List (Nat × Nat))

mutual

-- The same value, but for the addresses of corresponding maps and objects.
inductive Alike : Value → Value → Prop
  | nil : Alike .nil .nil
  | bool (b : Bool) : Alike (.bool b) (.bool b)
  | int (a : Int64) : Alike (.int a) (.int a)
  | float (a : Float) : Alike (.float a) (.float a)
  | str (text : String) : Alike (.str text) (.str text)
  | slice {as bs : List Value} : AlikeItems as bs → Alike (.slice as) (.slice bs)
  | map {a b : Nat} : (a, b) ∈ maps → Alike (.map a) (.map b)
  | object {t : Twin} : t ∈ twins → Alike (.object t.object) (.object t.wrapper)

inductive AlikeItems : List Value → List Value → Prop
  | nil : AlikeItems [] []
  | cons {a b : Value} {as bs : List Value} : Alike a b → AlikeItems as bs →
      AlikeItems (a :: as) (b :: bs)

end

end

-- Values without parts.
def isAtom : Value → Bool
  | nil | bool _ | int _ | float _ | str _ => true
  | _ => false

variable {twins twins' : List Twin} {maps maps' : List (Nat × Nat)} {v v' a b a' b' : Value}

theorem alikeItems_iff {as bs : List Value} :
    AlikeItems twins maps as bs ↔ List.Forall₂ (Alike twins maps) as bs := by
  constructor
  · intro h
    induction as generalizing bs with
    | nil => cases h; exact .nil
    | cons a as ih =>
      cases h with
      | cons head rest => exact .cons head (ih rest)
  · intro h
    induction h with
    | nil => exact .nil
    | cons head _ ih => exact .cons head ih

mutual

theorem Alike.mono (ht : twins ⊆ twins') (hm : maps ⊆ maps') :
    ∀ {v v' : Value}, Alike twins maps v v' → Alike twins' maps' v v'
  | _, _, .nil => .nil
  | _, _, .bool b => .bool b
  | _, _, .int a => .int a
  | _, _, .float a => .float a
  | _, _, .str text => .str text
  | _, _, .slice items => .slice (AlikeItems.mono ht hm items)
  | _, _, .map mem => .map (hm mem)
  | _, _, .object mem => .object (ht mem)

theorem AlikeItems.mono (ht : twins ⊆ twins') (hm : maps ⊆ maps') :
    ∀ {as bs : List Value}, AlikeItems twins maps as bs → AlikeItems twins' maps' as bs
  | _, _, .nil => .nil
  | _, _, .cons head rest => .cons (head.mono ht hm) (rest.mono ht hm)

end

theorem Alike.of_isAtom (h : v.isAtom = true) : Alike twins maps v v := by
  cases v <;> first | contradiction | constructor

theorem Alike.eq_of_isAtom (h : Alike twins maps v v') (atom : v.isAtom = true) : v' = v := by
  cases h <;> first | contradiction | rfl

theorem Alike.int?_eq (h : Alike twins maps v v') : v.int? = v'.int? := by
  cases h <;> rfl

theorem Alike.bool?_eq (h : Alike twins maps v v') : v.bool? = v'.bool? := by
  cases h <;> rfl

theorem Alike.key?_eq (h : Alike twins maps v v') : v.key? = v'.key? := by
  cases h <;> rfl

theorem Alike.toValue (k : MapKey) : Alike twins maps k.toValue k.toValue := by
  cases k <;> constructor

mutual

-- What is equal in one run is equal in the other.
theorem Alike.equal_eq (apart : Twin.Apart twins) (pm : PairedMaps maps) :
    ∀ {a a' b b' : Value}, Alike twins maps a a' → Alike twins maps b b' →
      a.equal b = a'.equal b' := by
  intro a a' b b' ha hb
  cases ha with
  | slice items =>
    cases hb with
    | slice items' =>
      simp only [equal]
      exact AlikeItems.equal_eq apart pm items items'
    | nil => cases items <;> rfl
    | _ => rfl
  | nil =>
    cases hb with
    | slice items => cases items <;> rfl
    | _ => rfl
  | map mem =>
    cases hb with
    | map mem' => simpa [equal, sameAddress] using pm _ mem _ mem'
    | _ => rfl
  | object mem =>
    cases hb with
    | object mem' =>
      have same := apart _ mem _ mem'
      simp only [equal, sameAddress]
      grind
    | _ => rfl
  | _ => cases hb <;> rfl

theorem AlikeItems.equal_eq (apart : Twin.Apart twins) (pm : PairedMaps maps) :
    ∀ {as as' bs bs' : List Value}, AlikeItems twins maps as as' →
      AlikeItems twins maps bs bs' → equalItems as bs = equalItems as' bs' := by
  intro as as' bs bs' ha hb
  cases ha with
  | nil => cases hb <;> rfl
  | cons head rest =>
    cases hb with
    | nil => rfl
    | cons head' rest' =>
      simp only [equalItems]
      rw [Alike.equal_eq apart pm head head', AlikeItems.equal_eq apart pm rest rest']

end

theorem forall₂_set {R : Value → Value → Prop} {as bs : List Value} (h : List.Forall₂ R as bs)
    (n : Nat) {a b : Value} (hab : R a b) : List.Forall₂ R (as.set n a) (bs.set n b) := by
  induction h generalizing n with
  | nil => exact .nil
  | cons head tail ih =>
    cases n with
    | zero => exact .cons hab tail
    | succ n => exact .cons head (ih n)

-- What is missing on both sides counts as nothing on both.
theorem Alike.getD {x y : Option Value} (h : Option.Rel (Alike twins maps) x y) :
    Alike twins maps (x.getD .nil) (y.getD .nil) := by
  cases h with
  | none => exact .nil
  | some h => exact h

theorem intOperation_isAtom {op : BinaryOp} {x y : Int64} (h : intOperation op x y = .ok v) :
    v.isAtom = true := by
  cases op <;> simp only [intOperation, ok_pure, ok_throw] at h <;>
    first
      | exact h ▸ rfl
      | (simp only [divides] at h; grind [isAtom, ok_pure, ok_throw])

theorem floatOperation_isAtom {op : BinaryOp} {x y : Float} (h : floatOperation op x y = .ok v) :
    v.isAtom = true := by
  cases op <;> simp only [floatOperation, ok_pure, ok_throw] at h <;> exact h ▸ rfl

theorem strOperation_isAtom {op : BinaryOp} {x y : String} (h : strOperation op x y = .ok v) :
    v.isAtom = true := by
  cases op <;> simp only [strOperation, ok_pure, ok_throw] at h <;> exact h ▸ rfl

-- Only comparisons for equality take values with parts.
theorem binary_atoms {op : BinaryOp} (h : binary op a b = .ok v) (heq : op ≠ .eq) (hne : op ≠ .ne) :
    a.isAtom = true ∧ b.isAtom = true ∧ v.isAtom = true := by
  unfold binary at h
  split at h <;> try contradiction
  split at h
  case h_1 => exact ⟨rfl, rfl, intOperation_isAtom h⟩
  case h_2 | h_3 | h_4 => exact ⟨rfl, rfl, floatOperation_isAtom h⟩
  case h_5 => exact ⟨rfl, rfl, strOperation_isAtom h⟩
  case h_6 => simp [ok_throw] at h

theorem Alike.binary (apart : Twin.Apart twins) (pm : PairedMaps maps) {op : BinaryOp}
    (ha : Alike twins maps a a') (hb : Alike twins maps b b') (h : a.binary op b = .ok v) :
    Value.binary op a' b' = .ok v ∧ v.isAtom = true := by
  by_cases heq : op = .eq
  · subst heq
    rw [Value.binary, ← ha.equal_eq apart pm hb]
    exact ⟨h, ok_pure.1 h ▸ rfl⟩
  · by_cases hne : op = .ne
    · subst hne
      rw [Value.binary, ← ha.equal_eq apart pm hb]
      exact ⟨h, ok_pure.1 h ▸ rfl⟩
    · obtain ⟨atom, atom', result⟩ := binary_atoms h heq hne
      rw [ha.eq_of_isAtom atom, hb.eq_of_isAtom atom']
      exact ⟨h, result⟩

theorem Alike.unary {op : UnaryOp} (ha : Alike twins maps a a') (h : Value.unary op a = .ok v) :
    ∃ v', Value.unary op a' = .ok v' ∧ Alike twins maps v v' := by
  by_cases atom : a.isAtom = true
  · rw [ha.eq_of_isAtom atom]
    refine ⟨v, h, .of_isAtom ?_⟩
    cases op <;> cases a <;> simp only [Value.unary, ok_pure, ok_throw] at h <;>
      first
        | contradiction
        | exact h ▸ atom
        | exact h ▸ rfl
        | (split at h <;> simp only [ok_pure, ok_throw] at h; exact h ▸ rfl)
  · cases op <;> cases ha <;> simp only [Value.unary, ok_pure, ok_throw] at h <;>
      first
        | exact absurd rfl atom
        | exact ⟨_, rfl, h ▸ by constructor; assumption⟩

end Value

-- Variables start with values without parts, or with an empty slice.
theorem Program.zeroWithin_induction {P : Value → Prop} (atom : ∀ v, v.isAtom = true → P v)
    (empty : P (.slice [])) (p : Program) (type : TypeExpr) (steps : Nat) :
    P (p.zeroWithin type steps) := by
  have basic {type : TypeExpr} {v : Value} (h : basicZero? type = some v) : P v := by
    unfold basicZero? at h
    split at h
    · exact Option.some.inj h ▸ empty
    · refine atom v ?_
      grind [Value.isAtom]
  induction steps generalizing type with
  | zero =>
    unfold zeroWithin
    split
    case h_1 found => exact basic found
    all_goals first | exact atom .nil rfl | contradiction
  | succ steps ih =>
    unfold zeroWithin
    split
    case h_1 found => exact basic found
    case h_2 steps' more _ =>
      obtain rfl : steps = steps' := Nat.succ.inj more
      split
      · exact ih _
      · exact atom .nil rfl
    case h_3 => exact atom .nil rfl

theorem Program.zero_alike (twins : List Twin) (maps : List (Nat × Nat)) (p : Program)
    (type : TypeExpr) : Value.Alike twins maps (p.zero type) (p.zero type) :=
  zeroWithin_induction (P := fun v => Value.Alike twins maps v v) (fun _ => .of_isAtom)
    (.slice .nil) p type _

end FieldAccess
