
namespace FieldAccess.Decimal

structure Digits where
  digits : Nat
  exponent : Int
deriving DecidableEq, Repr

structure Binary where
  significand : Nat
  exponent : Int
deriving DecidableEq, Repr

def Binary.ofBits (bits : Nat) : Binary :=
  let fraction : Nat := bits % Nat.pow 2 52
  let field : Nat := bits / Nat.pow 2 52 % Nat.pow 2 11
  if field = 0 then ⟨fraction, -1074⟩ else ⟨Nat.pow 2 52 + fraction, (field : Int) - 1075⟩

-- The reals that round to a double, in quarters of its last place.
structure Interval where
  low : Nat
  high : Nat
  closed : Bool

-- Below a power of two the doubles lie twice as close.
def Binary.interval (b : Binary) : Interval where
  low := if b.significand = Nat.pow 2 52 ∧ -1074 < b.exponent then 4 * b.significand - 1
    else 4 * b.significand - 2
  high := 4 * b.significand + 2
  closed := b.significand % 2 = 0

def gridRatio (k e : Int) : Nat × Nat :=
  (Nat.pow 10 k.toNat * Nat.pow 2 (-e).toNat, Nat.pow 10 (-k).toNat * Nat.pow 2 e.toNat)

-- The multiple of `10 ^ k` in the interval that is nearest to the double; of two equally near, the
-- larger.
def Binary.onGrid? (b : Binary) (k : Int) : Option Nat :=
  let (num, den) := gridRatio k (b.exponent - 2)
  let interval := b.interval
  let value := 4 * b.significand * den
  let inside (n : Nat) : Bool :=
    if interval.closed then interval.low * den ≤ n * num && n * num ≤ interval.high * den
    else interval.low * den < n * num && n * num < interval.high * den
  let below := value / num
  let above := below + 1
  match inside below, inside above with
  | true, true => if value - below * num < above * num - value then some below else some above
  | true, false => some below
  | false, true => some above
  | false, false => none

-- The place of the leading decimal digit, by counting the digits of numerator and denominator and
-- then testing the three places that are left.
def Binary.leadingPlace (b : Binary) : Int :=
  let num := b.significand * Nat.pow 2 b.exponent.toNat
  let den := Nat.pow 2 (-b.exponent).toNat
  let guess : Int := (Nat.repr num).length - (Nat.repr den).length
  let reaches (place : Int) : Bool :=
    den * Nat.pow 10 place.toNat ≤ num * Nat.pow 10 (-place).toNat
  if reaches (guess + 1) then guess + 1 else if reaches guess then guess else guess - 1

def Digits.normalized : Nat → Digits → Digits
  | 0, d => d
  | fuel + 1, d =>
    if d.digits ≠ 0 ∧ d.digits % 10 = 0 then normalized fuel ⟨d.digits / 10, d.exponent + 1⟩ else d

-- The shortest decimal that rounds to `b`: the first of the grids of one, two, … digits that meets
-- the interval. Seventeen digits always suffice.
def Binary.shortest (b : Binary) : Digits :=
  let place := b.leadingPlace
  let candidates := (List.range 17).filterMap fun n : Nat =>
    let k : Int := place - n
    (b.onGrid? k).map (Digits.mk · k)
  (candidates.head?.getD ⟨0, 0⟩).normalized 17

end FieldAccess.Decimal
