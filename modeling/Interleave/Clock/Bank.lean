/-
# The clocks of a cluster

One clock a node. Asking for the clock of a node outside the cluster fails, and
so does an event past the last count; a failed request changes nothing.
-/
import Interleave.Clock

namespace Interleave

/-- The clock of every node, by address. -/
structure ClockBank where
  clocks : List Clock
  deriving DecidableEq

namespace ClockBank

/-- `n` clocks of `n` slots that know no event. -/
def zero (n : Nat) : ClockBank := ⟨List.replicate n (Clock.zero n)⟩

/-- The same, if a clock can have that many slots. -/
def ofSize (n : Nat) : Except Panic ClockBank :=
  match Clock.ofSize n with
  | .ok _ => .ok (zero n)
  | .error e => .error e

def size (b : ClockBank) : Nat := b.clocks.length

/-- All clocks forget what they know and have the cluster's size again. -/
def reset (b : ClockBank) : ClockBank := zero b.size

def read (b : ClockBank) (v : NodeId) : Except Panic Clock :=
  match b.clocks[v.index]? with
  | some c => .ok c
  | none => .error (.outOfBounds b.size v.index)

/-- One more event of node `v`, on its own clock. -/
def tick (b : ClockBank) (v : NodeId) : Except Panic ClockBank :=
  match b.read v with
  | .error e => .error e
  | .ok c =>
    match c.tick? v with
    | some c => .ok ⟨b.clocks.set v.index c⟩
    | none => .error .overflow

/-- Node `v` learns all that `c` knows. -/
def merge (b : ClockBank) (v : NodeId) (c : Clock) : Except Panic ClockBank :=
  match b.read v with
  | .error e => .error e
  | .ok own => .ok ⟨b.clocks.set v.index (own.join c)⟩

end ClockBank

end Interleave
