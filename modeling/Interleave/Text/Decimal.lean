/-
# Numbers as text

Binary fractions with a fixed number of places, rounded from their exact value
with ties to the even neighbour, and signed 64-bit integers read from digits.
-/

namespace Interleave

namespace Text

/-- The whole number nearest to `num / den`; of two equally near, the even one. -/
def roundDiv (num den : Nat) : Nat :=
  let q := num / den
  let r := num % den
  if 2 * r < den then q else if den < 2 * r then q + 1 else q + q % 2

/-- `s` with zeros in front up to `width` characters. -/
def padZeros (width : Nat) (s : String) : String :=
  String.ofList (List.replicate (width - s.length) '0') ++ s

/-- Mantissa and exponent of a finite non-negative double: its value is the mantissa times
two to the exponent less 1074. -/
def mantissaExponent (bits : UInt64) : Nat × Nat :=
  let e := (bits.toNat >>> 52) % 2048
  let m := bits.toNat % 1 <<< 52
  if e = 0 then (m, 0) else (m + 1 <<< 52, e - 1)

/-- Ten to the `n`. -/
def tenTo (n : Nat) : Nat := Nat.pow 10 n

/-- The value of a finite non-negative double with `places` decimal places. -/
def fixedPlaces (places : Nat) (bits : UInt64) : String :=
  let (m, e) := mantissaExponent bits
  let scaled := roundDiv ((m * tenTo places) <<< e) (1 <<< 1074)
  toString (scaled / tenTo places) ++ "." ++ padZeros places (toString (scaled % tenTo places))

/-- The number a non-empty list of decimal digits stands for. -/
def digitsValue? (l : List Char) : Option Nat :=
  if l.isEmpty || !l.all Char.isDigit then none
  else some (l.foldl (fun n c => n * 10 + (c.toNat - '0'.toNat)) 0)

/-- A number below `bound` in decimal digits, after a plus sign or none. -/
def readNatural? (bound : Nat) (s : String) : Option Nat :=
  let digits := match s.toList with
    | '+' :: l => l
    | l => l
  (digitsValue? digits).filter (· < bound)

/-- A signed 64-bit integer in decimal digits, after a sign or none. -/
def readInteger? (s : String) : Option Int64 :=
  match s.toList with
  | '-' :: l => ((digitsValue? l).filter (· ≤ 1 <<< 63)).map fun n => Int64.ofInt (-(n : Int))
  | _ => (readNatural? (1 <<< 63) s).map fun n => Int64.ofInt n

end Text

end Interleave
