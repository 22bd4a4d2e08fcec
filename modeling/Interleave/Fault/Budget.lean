/-
# The failure budget

How many nodes may be down at a time, in all and of each role.
-/
import Interleave.Config

namespace Interleave

structure Allowance where
  maxFailed : Nat
  maxFailedByRole : List (Role × Nat)
  /-- The role of every node, by address. -/
  roles : List Role
  deriving DecidableEq

namespace Allowance

def size (b : Allowance) : Nat := b.roles.length

/-- How many of these nodes have role `t`. -/
def countOfRole (b : Allowance) (t : Role) (failed : List NodeId) : Nat :=
  failed.countP fun v => b.roles[v.index]? = some t

/-- Whether these nodes may be down at the same time. -/
def allows (b : Allowance) (failed : List NodeId) : Bool :=
  failed.length ≤ b.maxFailed && b.maxFailedByRole.all fun l => b.countOfRole l.1 failed ≤ l.2

end Allowance

end Interleave
