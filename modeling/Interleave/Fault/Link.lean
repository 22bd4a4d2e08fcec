/-
# Links and connected components

A link joins two different nodes and is named by the lower one first. Every two
nodes are linked unless their link is cut; the nodes are labelled by connected
component, components in the order of their lowest node (`Link.labels`).

A component is searched from its lowest node with a stack of nodes to go on from
(`Link.spread`). A node gets its label when it is put on the stack.
-/
import Interleave.Id

namespace Interleave

structure Link where
  low : NodeId
  high : NodeId
  deriving DecidableEq

namespace Link

/-- Links are ordered by their lower node, then by the other. -/
instance : LT Link := ⟨fun a b => a.low < b.low ∨ a.low = b.low ∧ a.high < b.high⟩
instance (a b : Link) : Decidable (a < b) :=
  inferInstanceAs (Decidable (a.low < b.low ∨ a.low = b.low ∧ a.high < b.high))

/-- The link between two nodes; none from a node to itself. -/
def between? (a b : NodeId) : Option Link :=
  if a < b then some ⟨a, b⟩ else if b < a then some ⟨b, a⟩ else none

/-- All links between `n` nodes, in order. -/
def all (n : Nat) : List Link :=
  (List.range n).flatMap fun i =>
    ((List.range n).drop (i + 1)).map fun j => ⟨NodeId.ofIndex i, NodeId.ofIndex j⟩

def text (l : Link) : String := toString l.low.index ++ "-" ++ toString l.high.index

/-- Whether places `i` and `j` are linked directly. -/
def joined (cut : List Link) (i j : Nat) : Bool :=
  i ≠ j && !cut.contains ⟨NodeId.ofIndex (min i j), NodeId.ofIndex (max i j)⟩

/-- Looks from place `i` at place `j`: if it is joined and has no label, it gets label `k` and goes
on the stack. -/
def visit (cut : List Link) (k i : Nat) (s : List Nat × List (Option Nat)) (j : Nat) :
    List Nat × List (Option Nat) :=
  if s.2[j]? = some none && joined cut i j then (j :: s.1, s.2.set j (some k)) else s

/-- Gives label `k` to all nodes that can be reached from the places on the stack through nodes not
labelled before. The place on top looks at all others; `fuel` places are taken off at most. -/
def spread (cut : List Link) (k : Nat) : Nat → List Nat → List (Option Nat) → List (Option Nat)
  | 0, _, labels => labels
  | _ + 1, [], labels => labels
  | fuel + 1, i :: stack, labels =>
    let (stack, labels) := (List.range labels.length).foldl (visit cut k i) (stack, labels)
    spread cut k fuel stack labels

/-- Labels, from place `i` on, the components not labelled before; `k` is the next label. -/
def labelFrom (cut : List Link) : List Nat → Nat → List (Option Nat) → List (Option Nat)
  | [], _, labels => labels
  | i :: rest, k, labels =>
    if labels[i]? = some none then
      labelFrom cut rest (k + 1) (spread cut k labels.length [i] (labels.set i (some k)))
    else labelFrom cut rest k labels

/-- The component label of each of `n` nodes when the links in `cut` are cut. -/
def labels (n : Nat) (cut : List Link) : List Nat :=
  (labelFrom cut (List.range n) 0 (List.replicate n none)).map (·.getD 0)

/-- The label that occurs most often; of several, the lowest. -/
def mainLabel (labels : List Nat) : Nat :=
  (List.range labels.length).foldl
    (fun best k => if labels.count best < labels.count k then k else best) 0

/-- The nodes outside the largest component. -/
def outside (labels : List Nat) : List NodeId :=
  ((List.range labels.length).filter fun i => labels[i]? ≠ some (mainLabel labels)).map
    NodeId.ofIndex

end Link

end Interleave
