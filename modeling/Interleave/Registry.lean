/-
# The nodes of a cluster

Nodes are registered in groups of one role. Addresses are handed out without
gaps in the order of registration; registering a role again replaces its group
in place. An instance is made from its address and the number of instances made
there before (`Registry.spawn?`).
-/
import Interleave.Limit
import Interleave.Id

namespace Interleave

/-- Nodes of one role. -/
structure Group (σ : Type) where
  role : Role
  count : Nat
  /-- The state of a new instance at an address, given how many were made there before. -/
  make : NodeId → Nat → σ

structure Registry (σ : Type) where
  groups : List (Group σ)

namespace Registry

variable {σ : Type}

def empty : Registry σ := ⟨[]⟩

def registerIn (g : Group σ) : List (Group σ) → List (Group σ)
  | [] => [g]
  | h :: rest => if h.role = g.role then g :: rest else h :: registerIn g rest

/-- Adds a group, in place of an earlier one of the same role. -/
def register (r : Registry σ) (g : Group σ) : Registry σ := ⟨registerIn g r.groups⟩

/-- The number of places that groups take. -/
def placesOf : List (Group σ) → Nat
  | [] => 0
  | g :: rest => g.count + placesOf rest

def size (r : Registry σ) : Nat := placesOf r.groups

def has (r : Registry σ) (t : Role) : Bool := r.groups.any (·.role = t)

/-- The role of every address. -/
def roles (r : Registry σ) : List Role :=
  r.groups.flatMap fun g => List.replicate g.count g.role

/-- Whether the roles of all addresses can be listed; a role takes 16 bytes. -/
def canHold (r : Registry σ) : Bool := holds 16 r.size

/-- Whether all clocks fit into memory; each node's has a slot of 8 bytes for every node. -/
def canClock (r : Registry σ) : Bool := 8 * r.size * r.size ≤ memory

def addressesFrom (t : Role) : Nat → List (Group σ) → List NodeId
  | _, [] => []
  | start, g :: rest =>
    if g.role = t then (List.range g.count).map fun i => NodeId.ofIndex (start + i)
    else addressesFrom t (start + g.count) rest

/-- The addresses of the nodes of role `t`. -/
def addresses (r : Registry σ) (t : Role) : List NodeId := addressesFrom t 0 r.groups

def groupFrom (index : Nat) : Nat → List (Group σ) → Option (Group σ)
  | _, [] => none
  | start, g :: rest =>
    if index < start + g.count then some g else groupFrom index (start + g.count) rest

/-- The group that an address belongs to. -/
def groupOf? (r : Registry σ) (v : NodeId) : Option (Group σ) := groupFrom v.index 0 r.groups

/-- A new instance at an address where `earlier` instances were made before. -/
def spawn? (r : Registry σ) (v : NodeId) (earlier : Nat) : Option σ :=
  (r.groupOf? v).map fun g => g.make v earlier

end Registry

end Interleave
