/-
# Crashes and partitions

Which nodes are down and how the network is split. Every change yields a new
fault state, or none when it is not allowed: a crash, a cut or a split must keep
the failed nodes within the budget. A split into halves cuts a random minority
off; in the other mode single links are cut, and the nodes outside the largest
connected component count as failed.

Key definitions: `Split`, `FaultState`, `FaultState.crash?`, `FaultState.recover?`,
`FaultState.cut?`, `FaultState.restore?`, `FaultState.partition?`,
`FaultState.heal?`, `FaultState.reaches`.
-/
import Interleave.Ascending
import Interleave.Fault.Budget
import Interleave.Fault.Link
import Interleave.Random

namespace Interleave

/-- How the network is split. -/
inductive Split where
  /-- The minority on one side, all others on the other; nobody when whole. -/
  | halves (minority : List NodeId)
  /-- The cut links, the component label of every node, and the nodes outside the largest one. -/
  | links (cut : List Link) (labels : List Nat) (outside : List NodeId)
  deriving DecidableEq

structure FaultState where
  budget : Allowance
  crashed : List NodeId
  split : Split
  deriving DecidableEq

namespace FaultState

/-- All nodes up and the network whole. -/
def healthy (roles : List Role) (c : Config) : FaultState where
  budget := ⟨c.maxFailed, c.maxFailedByRole, roles⟩
  crashed := []
  split := match c.partitionMode with
    | .halves => .halves []
    | .singleEdge => .links [] (List.replicate roles.length 0) []

def size (m : FaultState) : Nat := m.budget.size

def isCrashed (m : FaultState) (v : NodeId) : Bool := m.crashed.contains v

/-- The nodes that the split cuts off. -/
def cutOff (m : FaultState) : List NodeId :=
  match m.split with
  | .halves minority => minority
  | .links _ _ outside => outside

def isSplit (m : FaultState) : Bool :=
  match m.split with
  | .halves minority => !minority.isEmpty
  | .links cut _ _ => !cut.isEmpty

/-- Crashed and cut-off nodes together. -/
def failed (m : FaultState) : List NodeId := Ascending.union m.crashed m.cutOff

def numFailed (m : FaultState) : Nat := m.failed.length

def crash? (m : FaultState) (v : NodeId) : Option FaultState :=
  if m.size ≤ v.index || m.isCrashed v then none
  else if m.budget.allows (Ascending.insert v m.failed) then
    some { m with crashed := Ascending.insert v m.crashed }
  else none

def recover? (m : FaultState) (v : NodeId) : Option FaultState :=
  if m.isCrashed v then some { m with crashed := m.crashed.erase v } else none

/-- Whether a message from `a` reaches `b`. Single cuts do not stop what a crashed node sent. -/
def reaches (m : FaultState) (a b : NodeId) : Bool :=
  match m.split with
  | .halves minority => minority.contains a == minority.contains b
  | .links _ labels _ =>
    m.isCrashed a ||
      match labels[a.index]?, labels[b.index]? with
      | some i, some j => i == j
      | _, _ => false

/-- Whether a partition may be tried. -/
def canPartition (m : FaultState) : Bool :=
  m.numFailed < m.budget.maxFailed &&
    match m.split with
    | .halves minority => minority.isEmpty && 2 ≤ m.size - m.crashed.length
    | .links .. => 2 ≤ m.size

/-- The same state with other links cut. -/
def withCut (m : FaultState) (cut : List Link) : FaultState :=
  let labels := Link.labels m.size cut
  { m with split := .links cut labels (Link.outside labels) }

/-- Cuts the link between two nodes. -/
def cut? (m : FaultState) (a b : NodeId) : Option FaultState :=
  match m.split with
  | .halves _ => none
  | .links cut _ _ =>
    match Link.between? a b with
    | none => none
    | some link =>
      if m.size ≤ link.high.index || cut.contains link then none
      else
        let next := m.withCut (Ascending.insert link cut)
        if m.budget.allows next.failed then some next else none

/-- Restores a cut link. -/
def restore? (m : FaultState) (a b : NodeId) : Option FaultState :=
  match m.split with
  | .halves _ => none
  | .links cut _ _ =>
    match Link.between? a b with
    | none => none
    | some link => if cut.contains link then some (m.withCut (cut.erase link)) else none

/-- The nodes that are not crashed. -/
def up (m : FaultState) : List NodeId :=
  ((List.range m.size).map NodeId.ofIndex).filter fun v => !m.isCrashed v

/-- The largest minority that may be cut off. -/
def minorityLimit (m : FaultState) : Nat := min (m.budget.maxFailed - m.numFailed) (m.up.length - 1)

/-- Takes nodes from the list, in order, that fit the budget, up to `size` of them. -/
def gather (m : FaultState) (size : Nat) : List NodeId → List NodeId → List NodeId
  | [], chosen => chosen
  | v :: rest, chosen =>
    if chosen.length = size then chosen
    else if m.budget.allows (Ascending.union m.crashed (Ascending.insert v chosen)) then
      gather m size rest (Ascending.insert v chosen)
    else gather m size rest chosen

/-- Splits the network at random. -/
def partition? (m : FaultState) (s : Source) : Option FaultState × Source :=
  match m.split with
  | .halves minority =>
    if !minority.isEmpty || m.minorityLimit = 0 then (none, s)
    else
      let (size, s) := Source.between 1 m.minorityLimit s
      let (order, s) := Source.shuffle m.up s
      match m.gather size order [] with
      | [] => (none, s)
      | chosen => (some { m with split := .halves chosen }, s)
  | .links cut _ _ =>
    match Source.choose ((Link.all m.size).filter fun l => !cut.contains l) s with
    | (some link, s) => (m.cut? link.low link.high, s)
    | (none, s) => (none, s)

/-- Undoes a split: the halves join again, or one random link is restored. -/
def heal? (m : FaultState) (s : Source) : Option FaultState × Source :=
  match m.split with
  | .halves minority => (if minority.isEmpty then none else some { m with split := .halves [] }, s)
  | .links cut _ _ =>
    match Source.choose cut s with
    | (some link, s) => (m.restore? link.low link.high, s)
    | (none, s) => (none, s)

def indexList (l : List NodeId) : String :=
  String.intercalate ", " (l.map fun v => toString v.index)

/-- The split, for the event log. -/
def describe (m : FaultState) : String :=
  match m.split with
  | .halves minority => "halves \x7b" ++ indexList minority ++ "\x7d"
  | .links cut _ outside =>
    "cut [" ++ String.intercalate ", " (cut.map Link.text) ++ "] unreachable \x7b"
      ++ indexList outside ++ "\x7d"

end FaultState

end Interleave
