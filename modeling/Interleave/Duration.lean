/-
# Spans of time

A span is a whole number of nanoseconds. It is written in the largest of
seconds, milliseconds, microseconds and nanoseconds that is not above it, with
as many decimals as it needs.
-/
import Interleave.Text.Decimal

namespace Interleave

structure Duration where
  nanos : Nat
  deriving DecidableEq

namespace Duration

/-- The nanoseconds of a second. -/
def second : Nat := Text.tenTo 9

def ofSeconds (n : Nat) : Duration := ⟨n * second⟩

/-- Decimal places of `rest` out of `10 ^ width`, without zeros at the end. -/
def places (width rest : Nat) : String :=
  let digits := (Text.padZeros width (toString rest)).toList.reverse.dropWhile (· == '0')
  if digits.isEmpty then "" else "." ++ String.ofList digits.reverse

/-- Written in units of `10 ^ width` nanoseconds. -/
def inUnit (width : Nat) (unit : String) (d : Duration) : String :=
  let size := Text.tenTo width
  toString (d.nanos / size) ++ (if width = 0 then "" else places width (d.nanos % size)) ++ unit

def text (d : Duration) : String :=
  if Text.tenTo 9 ≤ d.nanos then d.inUnit 9 "s"
  else if Text.tenTo 6 ≤ d.nanos then d.inUnit 6 "ms"
  else if Text.tenTo 3 ≤ d.nanos then d.inUnit 3 "µs"
  else d.inUnit 0 "ns"

end Duration

end Interleave
