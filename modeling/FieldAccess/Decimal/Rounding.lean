
namespace FieldAccess.Decimal

def divNearestEven (num den : Nat) : Nat :=
  let quotient := num / den
  let twice := 2 * (num % den)
  if twice < den then quotient
  else if den < twice then quotient + 1
  else quotient + quotient % 2

def significandAt (num den : Nat) (exponent : Int) : Nat :=
  divNearestEven (num * Nat.pow 2 (-exponent).toNat) (den * Nat.pow 2 exponent.toNat)

-- The least binary exponent at which the whole part of the ratio has at most 53 bits, but never
-- less than that of the smallest double.
def binaryExponent (num den : Nat) : Int :=
  let guess : Int := (num.log2 : Int) - den.log2 - 53
  let fits := num * Nat.pow 2 (-guess).toNat / (den * Nat.pow 2 guess.toNat) < Nat.pow 2 53
  max (if fits then guess else guess + 1) (-1074)

-- The bits of the double nearest to `num / den`. A significand that rounding carries to 54 bits
-- moves into the exponent field by itself.
def nearestBits (num den : Nat) : Nat :=
  if num = 0 then 0
  else
    let exponent := binaryExponent num den
    let significand := significandAt num den exponent
    let bits :=
      if significand < Nat.pow 2 52 then significand
      else (exponent + 1074).toNat * Nat.pow 2 52 + significand
    min bits (2047 * Nat.pow 2 52)

def nearest (num den : Nat) : Float :=
  Float.ofBits (nearestBits num den).toUInt64

end FieldAccess.Decimal
