/-
# Registries counted in words

Counts of nodes are 64-bit words here: a question about a registry fails when the
places it has to count do not fit a word, or when its answer is longer than a list
can be. Otherwise the answer is the exact one.
-/
import Interleave.Error
import Interleave.Registry

namespace Interleave

namespace Registry

variable {σ : Type}

/-- A count of places, if it is a word. -/
def word (n : Nat) : Except Panic Nat := if n < UInt64.size then .ok n else .error .overflow

/-- The number of nodes. -/
def wordSize (r : Registry σ) : Except Panic Nat := word r.size

/-- The role of every address. -/
def listRoles (r : Registry σ) : Except Panic (List Role) := do
  let _ ← r.wordSize
  if r.canHold then return r.roles else throw .capacity

/-- The groups up to the one of role `t`, or all if there is none. -/
def groupsThrough (t : Role) : List (Group σ) → List (Group σ)
  | [] => []
  | g :: rest => if g.role = t then [g] else g :: groupsThrough t rest

/-- How many nodes of role `t` there are. -/
def countOf (r : Registry σ) (t : Role) : Nat :=
  ((r.groups.find? (·.role = t)).map Group.count).getD 0

/-- The addresses of the nodes of role `t`, of four bytes each. All places up to the last of them
are counted. -/
def listAddresses (r : Registry σ) (t : Role) : Except Panic (List NodeId) := do
  let _ ← word (placesOf (groupsThrough t r.groups))
  if holds 4 (r.countOf t) then return r.addresses t else throw .capacity

/-- The number of places up to the end of the group that holds place `index`. -/
def groupEnd (index : Nat) : Nat → List (Group σ) → Nat
  | start, [] => start
  | start, g :: rest =>
    if index < start + g.count then start + g.count else groupEnd index (start + g.count) rest

/-- A new instance at an address, as `spawn?` makes it. The places up to its group's end are
counted. -/
def create (r : Registry σ) (v : NodeId) (earlier : Nat) : Except Panic (Option σ) := do
  let _ ← word (groupEnd v.index 0 r.groups)
  return r.spawn? v earlier

end Registry

end Interleave
