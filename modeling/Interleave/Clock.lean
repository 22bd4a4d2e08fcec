/-
# Vector clocks

A clock counts, for each node, the events of that node it knows about. A slot
past the end of a clock reads as zero, so clocks of different lengths compare;
joining takes the larger count slot by slot and keeps the longer length. Slots are
read by address, so a comparison does not see those that no address reaches.

Key definitions: `Clock`, `Clock.tick?`, `Clock.join`, `Clock.le`,
`Clock.happensBefore`, `Clock.concurrent`.
-/
import Interleave.Error
import Interleave.Limit

namespace Interleave

/-- Counts of known events, one slot a node. -/
structure Clock where
  slots : List UInt64
  deriving DecidableEq, Inhabited

namespace Clock

/-- The clock of `n` nodes that knows no event. -/
def zero (n : Nat) : Clock := ⟨List.replicate n 0⟩

/-- The same, if a clock can have that many slots of eight bytes. -/
def ofSize (n : Nat) : Except Panic Clock := if holds 8 n then .ok (zero n) else .error .capacity

def get (c : Clock) (v : NodeId) : UInt64 := c.slots.getD v.index 0

/-- The slots with one more event at place `i`, grown with zeros where needed. -/
def tickSlots? : List UInt64 → Nat → Option (List UInt64)
  | [], 0 => some [1]
  | [], i + 1 => (tickSlots? [] i).map (0 :: ·)
  | x :: s, 0 => (wordSucc? x).map (· :: s)
  | x :: s, i + 1 => (tickSlots? s i).map (x :: ·)

/-- One more event of node `v`; none if its count is at the last word. -/
def tick? (c : Clock) (v : NodeId) : Option Clock := (tickSlots? c.slots v.index).map Clock.mk

def joinSlots : List UInt64 → List UInt64 → List UInt64
  | [], b => b
  | a, [] => a
  | x :: a, y :: b => max x y :: joinSlots a b

/-- All that either clock knows. -/
def join (a b : Clock) : Clock := ⟨joinSlots a.slots b.slots⟩

def leSlots : List UInt64 → List UInt64 → Bool
  | [], _ => true
  | x :: a, [] => x == 0 && leSlots a []
  | x :: a, y :: b => decide (x ≤ y) && leSlots a b

/-- Every count of `a` is at most that of `b`, at each address. -/
def le (a b : Clock) : Bool := leSlots (a.slots.take UInt32.size) (b.slots.take UInt32.size)

/-- `b` knows all that `a` knows, and more. -/
def happensBefore (a b : Clock) : Bool := a.le b && !b.le a

/-- Each clock knows an event the other does not. -/
def concurrent (a b : Clock) : Bool := !a.le b && !b.le a

def text (c : Clock) : String :=
  "[" ++ String.intercalate ", " (c.slots.map fun x => toString x.toNat) ++ "]"

end Clock

end Interleave
