/-
# The next interleaving

The prefix of the next iteration is found by descending from the root. While
switches are left each choice is drawn in proportion to the unexplored share
behind it (`Tree.draw`), and a choice other than the canonical one uses a switch;
without switches the canonical choice is taken. The descent ends at a node that was not
visited, at one where nothing is eligible, or after a step to a new child.
-/
import Interleave.Tree

namespace Interleave

namespace Tree

variable {F : Type} [Share F]

/-- The entry whose stretch holds the point, when the weights are laid end to end. -/
def locate (point : F) : List (TaskId × F) → Option TaskId
  | [] => none
  | (id, w) :: rest =>
    if Share.le w Share.zero then locate point rest
    else if Share.lt point w then some id
    else locate (Share.sub point w) rest

/-- The last entry with a positive weight. -/
def lastPositive (weights : List (TaskId × F)) : Option TaskId :=
  (weights.reverse.find? fun e => Share.lt Share.zero e.2).map (·.1)

/-- Draws an eligible task in proportion to the unexplored share behind it. Nothing is drawn when
nothing is unexplored. -/
def draw (t : Tree F) (x : TreeNode F) (s : Source) : Option TaskId × Source :=
  let weights := x.eligibleIds.map fun id => (id, t.weight x id)
  let total := sum (weights.map (·.2))
  if Share.le total Share.zero then (none, s)
  else
    let (point, s) := Source.point total s
    match locate point weights with
    | some id => (some id, s)
    | none => (lastPositive weights, s)

/-- The choice at a node with the given canonical choice and switches left. -/
def chooseAt (t : Tree F) (x : TreeNode F) (canonical : TaskId) (switches : Nat) (s : Source) :
    TaskId × Source :=
  if switches = 0 then (canonical, s)
  else
    let (drawn, s) := t.draw x s
    (drawn.getD canonical, s)

/-- Descends from node `n`. Children stand after their parents, so as many steps as there are
nodes are enough. -/
def descend (t : Tree F) : Nat → Nat → Nat → Source → List TaskId × Source
  | 0, _, _, s => ([], s)
  | fuel + 1, n, switches, s =>
    match t.nodes[n]? with
    | none => ([], s)
    | some x =>
      match x.next? with
      | none => ([], s)
      | some canonical =>
        let (chosen, s) := t.chooseAt x canonical switches s
        let left := if chosen = canonical then switches else switches - 1
        match x.child? chosen with
        | none => ([chosen], s)
        | some c =>
          let (path, s) := t.descend fuel c left s
          (chosen :: path, s)

/-- The prefix of the next iteration, with at most `switches` choices off the canonical order. -/
def plan (t : Tree F) (switches : Nat) (s : Source) : List TaskId × Source :=
  t.descend t.size root switches s

end Tree

end Interleave
