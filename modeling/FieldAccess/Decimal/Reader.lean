import FieldAccess.Decimal.Rounding

namespace FieldAccess.Decimal

def digitsValue (value : Nat) : List Char → Nat
  | [] => value
  | c :: rest => digitsValue (10 * value + (c.toNat - '0'.toNat)) rest

def isDigits (text : List Char) : Bool :=
  !text.isEmpty && text.all Char.isDigit

def natural? (text : List Char) : Option Nat :=
  if isDigits text then some (digitsValue 0 text) else none

def splitSign : List Char → Bool × List Char
  | '-' :: rest => (true, rest)
  | '+' :: rest => (false, rest)
  | text => (false, text)

def integer? (text : List Char) : Option Int :=
  let (negative, digits) := splitSign text
  (natural? digits).map fun n => if negative then -(n : Int) else n

def int64? (text : List Char) : Option Int64 :=
  (integer? text).bind fun n =>
    if Int64.minValue.toInt ≤ n ∧ n ≤ Int64.maxValue.toInt then some (Int64.ofInt n) else none

-- The double nearest to `digits * 10 ^ exponent`, where `digits` has `size` digits. Far outside the
-- range of doubles the power of ten is not computed.
def ofDigits (digits size : Nat) (exponent : Int) : Float :=
  if digits = 0 ∨ exponent + size < -400 then 0.0
  else if 400 < exponent then nearest (Nat.pow 10 400) 1
  else nearest (digits * Nat.pow 10 exponent.toNat) (Nat.pow 10 (-exponent).toNat)

def cutAt (p : Char → Bool) (text : List Char) : List Char × Option (List Char) :=
  match text.span (!p ·) with
  | (front, []) => (front, none)
  | (front, _ :: back) => (front, some back)

-- Digits with at most one point among them and an optional exponent. One side of the point may be
-- empty, not both.
def decimal? (text : List Char) : Option Float := do
  let (number, exponentText) := cutAt (fun c => c = 'e' || c = 'E') text
  let exponent ← match exponentText with
    | none => some 0
    | some digits => integer? digits
  let (whole, fractionText) := cutAt (· = '.') number
  let fraction := fractionText.getD []
  let digits := whole ++ fraction
  if isDigits digits then
    some (ofDigits (digitsValue 0 digits) digits.length (exponent - fraction.length))
  else none

-- A decimal with an optional sign, or the name of an infinity or of the number that is none, in
-- letters of either case.
def float? (text : List Char) : Option Float :=
  let (negative, size) := splitSign text
  let name := String.ofList (size.map Char.toLower)
  let value :=
    if name = "inf" ∨ name = "infinity" then some (1.0 / 0.0)
    else if name = "nan" then some (0.0 / 0.0)
    else decimal? size
  value.map fun x => if negative then -x else x

end FieldAccess.Decimal
