import FieldAccess.Eval.Operator
import Mathlib.Algebra.Group.Nat.Defs

namespace FieldAccess

namespace BinaryOp

-- The results for whole numbers. Quotients are cut off towards zero, and a remainder has the sign of
-- the left operand.
def onIntegers? : BinaryOp → Option (Int → Int → Int)
  | add => some (· + ·)
  | sub => some (· - ·)
  | mul => some (· * ·)
  | div => some Int.tdiv
  | mod => some Int.tmod
  | _ => none

def divides : BinaryOp → Bool
  | div | mod => true
  | _ => false

end BinaryOp

namespace Value

-- What a 64-bit integer is made of a whole number: the one that differs from it by a multiple of
-- `2 ^ 64`.
def Wraps (r : Int64) (n : Int) : Prop :=
  r.toInt = n.bmod (2 ^ 64)

instance {r : Int64} {n : Int} : Decidable (Wraps r n) :=
  inferInstanceAs (Decidable (_ = _))

theorem wraps_tmod (a b : Int64) : Wraps (a % b) (a.toInt.tmod b.toInt) := by
  have same := Int64.toInt_mod a b
  rw [Wraps, ← same, Int.bmod_eq_of_le]
  · have := (a % b).le_toInt
    omega
  · have := (a % b).toInt_lt
    omega

theorem divides_eq (a b quotient : Int64) :
    divides a b quotient =
      if b = 0 then .error .divisionByZero
      else if a = Int64.minValue ∧ b = -1 then .error .overflow
      else .ok (.int quotient) := by
  rw [divides]
  split
  · rfl
  · simp only [Bool.and_eq_true, decide_eq_true_eq]
    rfl

-- An operator that does not divide has a result for all operands.
theorem exists_result {op : BinaryOp} (arithmetic : op.isArithmetic = true)
    (whole : op.divides = false) (a b : Int64) :
    ∃ r, (∀ f ∈ op.onIntegers?, Wraps r (f a.toInt b.toInt)) ∧
      binary op (.int a) (.int b) = .ok (.int r) := by
  cases op
  case add => exact ⟨a + b, fun _ h => Option.some.inj h ▸ Int64.toInt_add a b, rfl⟩
  case sub => exact ⟨a - b, fun _ h => Option.some.inj h ▸ Int64.toInt_sub a b, rfl⟩
  case mul => exact ⟨a * b, fun _ h => Option.some.inj h ▸ Int64.toInt_mul a b, rfl⟩
  case div | mod => cases whole
  case eq | ne | lt | le | gt | ge | and | or => cases arithmetic
  all_goals exact ⟨_, nofun, rfl⟩

-- A quotient or a remainder, if there is one.
theorem exists_quotient {op : BinaryOp} (divided : op.divides = true) (a b : Int64) :
    ∃ r, (∀ f ∈ op.onIntegers?, Wraps r (f a.toInt b.toInt)) ∧
      binary op (.int a) (.int b) = divides a b r := by
  cases op
  case div => exact ⟨a / b, fun _ h => Option.some.inj h ▸ Int64.toInt_div a b, rfl⟩
  case mod => exact ⟨a % b, fun _ h => Option.some.inj h ▸ wraps_tmod a b, rfl⟩
  all_goals cases divided

-- Every arithmetic operator and the minus sign give the result for whole numbers reduced to 64 bits,
-- or fail for one of the operands that they do not divide or negate.
theorem integer_operators_wrap {op : BinaryOp} (arithmetic : op.isArithmetic = true) (a b : Int64) :
    (∃ r, (∀ f ∈ op.onIntegers?, Wraps r (f a.toInt b.toInt)) ∧
      binary op (.int a) (.int b) =
        if op.divides = true ∧ b = 0 then .error .divisionByZero
        else if op.divides = true ∧ a = Int64.minValue ∧ b = -1 then .error .overflow
        else .ok (.int r)) ∧
    ∃ r, Wraps r (-a.toInt) ∧
      unary .negate (.int a) = if a = Int64.minValue then .error .overflow else .ok (.int r) := by
  refine ⟨?_, -a, Int64.toInt_neg a, rfl⟩
  cases divided : op.divides with
  | false =>
    obtain ⟨r, wraps, same⟩ := exists_result arithmetic divided a b
    exact ⟨r, wraps, by simp [same]⟩
  | true =>
    obtain ⟨r, wraps, same⟩ := exists_quotient divided a b
    exact ⟨r, wraps, by simp [same, divides_eq]⟩

-- The largest integer and 1 give the least one.
theorem integer_operators_wrap_max : BinaryOp.add.isArithmetic = true ∧
    binary .add (.int Int64.maxValue) (.int 1) = .ok (.int Int64.minValue) ∧
    (∃ r, (∀ f ∈ BinaryOp.add.onIntegers?, Wraps r (f Int64.maxValue.toInt 1)) ∧
      binary .add (.int Int64.maxValue) (.int 1) =
        if BinaryOp.add.divides = true ∧ (1 : Int64) = 0 then .error .divisionByZero
        else if BinaryOp.add.divides = true ∧ Int64.maxValue = Int64.minValue ∧ (1 : Int64) = -1
        then .error .overflow
        else .ok (.int r)) :=
  ⟨rfl, rfl, (@integer_operators_wrap .add rfl Int64.maxValue 1).1⟩

-- The quotient of the least integer and -1 wraps around to the least integer, and the remainder is 0.
-- Yet both are refused, though the divisor is not 0.
theorem least_integer_not_divided :
    Wraps Int64.minValue (Int64.minValue.toInt.tdiv (-1)) ∧
      binary .div (.int Int64.minValue) (.int (-1)) = .error .overflow ∧
      Wraps 0 (Int64.minValue.toInt.tmod (-1)) ∧
      binary .mod (.int Int64.minValue) (.int (-1)) = .error .overflow :=
  ⟨by decide, rfl, by decide, rfl⟩

end Value

end FieldAccess
