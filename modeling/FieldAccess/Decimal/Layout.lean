import FieldAccess.Decimal.Shortest

namespace FieldAccess.Decimal

def zeros (n : Nat) : String :=
  String.ofList (List.replicate n '0')

namespace Digits

-- How many digits stand before the point; zero or less if the number is below one tenth.
def point (d : Digits) : Int :=
  (Nat.repr d.digits).length + d.exponent

def positional (whole : String) (d : Digits) : String :=
  let text := Nat.repr d.digits
  let point := d.point
  if point ≤ 0 then "0." ++ zeros (-point).toNat ++ text
  else if point < text.length then
    let digits := text.toList
    String.ofList (digits.take point.toNat ++ '.' :: digits.drop point.toNat)
  else text ++ zeros (point - text.length).toNat ++ whole

def scientific (d : Digits) : String :=
  match (Nat.repr d.digits).toList with
  | [] => ""
  | first :: rest =>
    let fraction := if rest.isEmpty then [] else '.' :: rest
    String.ofList (first :: fraction) ++ "e" ++ toString (d.point - 1)

-- The layout of literals: positional from `0.0001` up to sixteen digits.
def literal (d : Digits) : String :=
  if -4 < d.point ∧ d.point ≤ 16 then d.positional ".0" else d.scientific

end Digits

def write (zero : String) (layout : Digits → String) (value : Float) : String :=
  let bits := value.toBits.toNat
  let sign := if Nat.pow 2 63 ≤ bits then "-" else ""
  let size := bits % Nat.pow 2 63
  if 2047 * Nat.pow 2 52 < size then "NaN"
  else if size = 2047 * Nat.pow 2 52 then sign ++ "inf"
  else if size = 0 then sign ++ zero
  else sign ++ layout (Binary.ofBits size).shortest

def plain (value : Float) : String :=
  write "0" (Digits.positional "") value

def literal (value : Float) : String :=
  write "0.0" Digits.literal value

end FieldAccess.Decimal
