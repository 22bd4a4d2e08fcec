/-
# Shares of a whole

How much of a subtree is unexplored is a number between zero and one. The tree
asks only for the operations of the class `Share`, so that it can be run on doubles
and studied on exact fractions.
-/
import Interleave.Random
import Interleave.Text.Decimal

namespace Interleave

/-- Numbers that measure shares. -/
class Share (F : Type) where
  zero : F
  one : F
  add : F → F → F
  sub : F → F → F
  /-- One `n`-th of a number. -/
  divNat : F → Nat → F
  lt : F → F → Bool
  le : F → F → Bool
  /-- The part `k / 2 ^ 52` of a number. -/
  part : Nat → F → F
  /-- The number with three decimal places. -/
  text : F → String

instance : Share Float where
  zero := 0
  one := 1
  add := (· + ·)
  sub := (· - ·)
  divNat x n := x / n.toFloat
  lt x y := x < y
  le x y := x ≤ y
  part k x := k.toFloat / 4503599627370496 * x
  text x := Text.fixedPlaces 3 x.toBits

/-- Shares as exact fractions. -/
instance : Share Rat where
  zero := 0
  one := 1
  add := (· + ·)
  sub := (· - ·)
  divNat x n := x / n
  lt x y := x < y
  le x y := x ≤ y
  part k x := k / 4503599627370496 * x
  text := toString

namespace Source

def pointLoop {F : Type} [Share F] (total : F) : Nat → Source → F × Source
  | 0, s => (Share.zero, s)
  | fuel + 1, s =>
    let (w, s) := word64 s
    let x := Share.part (w.toNat / 2 ^ 12) total
    if Share.lt x total then (x, s) else pointLoop total fuel s

/-- A number from zero up to `total`, not included, drawn from the 52 high bits of a word. -/
def point {F : Type} [Share F] (total : F) (s : Source) : F × Source := pointLoop total attempts s

end Source

end Interleave
