/-
# The tree as text

One line a node, children under their parent and two columns further in: the
task, the eligible tasks, the unexplored share with three decimals, and whether
all is explored.
-/
import Interleave.Tree

namespace Interleave

namespace TreeNode

variable {F : Type} [Share F]

def label (x : TreeNode F) : String :=
  match x.task with
  | some (id, kind) => kind.name ++ " " ++ id.text
  | none => "root"

def eligibleText (x : TreeNode F) : String :=
  match x.eligible with
  | some l => "[" ++ String.intercalate ", " (l.map fun e => toString e.1.number) ++ "]"
  | none => "unvisited"

def line (x : TreeNode F) (depth : Nat) : String :=
  String.ofList (List.replicate (2 * depth) ' ') ++ x.label ++ " next=" ++ x.eligibleText
    ++ " unexplored=" ++ Share.text x.unexplored
    ++ (if x.explored then " done" else "") ++ "\n"

end TreeNode

namespace Tree

variable {F : Type} [Share F]

/-- The lines of a node and of all below it. No path is longer than the number of nodes. -/
def renderFrom (t : Tree F) : Nat → Nat → Nat → List String
  | 0, _, _ => []
  | fuel + 1, depth, n =>
    match t.nodes[n]? with
    | none => []
    | some x => x.line depth :: (x.children.map (·.2)).flatMap (t.renderFrom fuel (depth + 1))

def render (t : Tree F) : String := String.join (t.renderFrom t.size 0 root)

end Tree

end Interleave
